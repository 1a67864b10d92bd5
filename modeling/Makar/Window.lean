import Makar.Layout

/-!
# The window of a program

A program has the addresses from `USER_CODE_BASE` to the top of its stack. Four calls and
the page-fault handler change what is mapped there: `SYS_MMAP2` maps, `SYS_MPROTECT` and
`SYS_MUNMAP` change what is mapped, and `SYS_BRK` reserves what a later fault maps. None of
them should map a page past the window, and none should write to the page tables that the
kernel shares with every address space.

The arguments are words of 32 bits, and few of them are looked at. `SYS_MUNMAP` clears
entries of the kernel's tables, `SYS_BRK` reserves what lies above the stack for the next
fault, and `MAP_FIXED` is allowed below `USER_CODE_BASE` (`window_left`). `window_kept` is the
law for the calls that stay clear of the kernel's tables and reserve inside the window. A page
fault needs no condition after such calls.
-/

namespace Makar

open List Boot

/-- `USER_CODE_BASE`. -/
def userCodeBase : ℕ := 0x40000000

/-- The address is one of the program's. -/
def InWindow (virt : ℕ) : Prop := userCodeBase ≤ virt ∧ virt < userStackTop

instance (virt : ℕ) : Decidable (InWindow virt) := inferInstanceAs (Decidable (_ ∧ _))

/-- The first address of a page, by its place in the tables. -/
def placeAddr (i j : ℕ) : ℕ := (i * tableSize + j) * pmmFrameSize

/-- An address is in the window when its page is. -/
theorem inWindow_placeAddr (virt : ℕ) :
    InWindow (placeAddr (pdIndex virt) (ptIndex virt)) ↔ InWindow virt := by
  unfold InWindow placeAddr pdIndex ptIndex tableSize pmmFrameSize userCodeBase userStackTop
  omega

/-- The ranges a task has reserved lie in the window. -/
structure Task.Laid (x : Task) : Prop where
  /-- The start of the heap, where there is one. -/
  base : x.userBrkBase = 0 ∨ userCodeBase ≤ x.userBrkBase
  /-- The break of a program. -/
  brk : x.userBrk = 0 ∨ userCodeBase ≤ x.userBrk
  /-- The heap ends in the window. -/
  heap : x.userBrk ≤ userStackTop
  /-- The cursor, once it is used. -/
  next : x.mmapNext = 0 ∨ userMmapBase ≤ x.mmapNext
  /-- So does what the cursor has passed. -/
  mapped : x.mmapNext ≤ userStackLimit

namespace Task

variable {x : Task}

/-- A task without a program has reserved nothing. -/
theorem laid_zero {state : TaskState} {pageDir : Option ℕ} {pid parentPid : ℕ} :
    Laid ⟨state, pageDir, 0, 0, 0, pid, parentPid⟩ :=
  ⟨.inl rfl, .inl rfl, Nat.zero_le _, .inl rfl, Nat.zero_le _⟩

section

variable (h : x.Laid)
include h

/-- **What a task has reserved is in the window.** -/
theorem Laid.inWindow {addr : ℕ} (hr : Machine.Reserved x addr) : InWindow addr := by
  obtain ⟨hbase, -, hheap, -, hmapped⟩ := h
  have hcode : userCodeBase ≤ userMmapBase := by decide
  have hlimit : userStackLimit ≤ userStackTop := by decide
  unfold Machine.Reserved at hr
  unfold InWindow
  omega

/-- `SYS_BRK`, by a program and below the top of the stack. -/
theorem Laid.sysBrk {newBrk : UInt32} (hset : x.userBrk ≠ 0) (hle : newBrk.toNat ≤ userStackTop) :
    (x.sysBrk newBrk).2.Laid := by
  have hbrk : userCodeBase ≤ x.userBrk := h.brk.resolve_left hset
  unfold Task.sysBrk
  by_cases hno : newBrk.toNat = 0 ∨ newBrk.toNat ≤ x.userBrk
  · rw [if_pos hno]
    exact h
  · rw [if_neg hno]
    push Not at hno
    refine ⟨?_, .inr (hbrk.trans hno.2.le), hle, h.next, h.mapped⟩
    show (if x.userBrkBase = 0 then x.userBrk else x.userBrkBase) = 0 ∨ _
    split_ifs
    · exact .inr hbrk
    · exact h.base

/-- The cursor of a task is in the window. -/
theorem Laid.cursor : userMmapBase ≤ x.cursor ∧ x.cursor ≤ userStackLimit := by
  unfold Task.cursor
  split_ifs with h0
  · decide
  · exact ⟨h.next.resolve_left h0, h.mapped⟩

/-- A range that does not wrap keeps the layout. -/
theorem Laid.reserve {pages : ℕ} (hfit : x.cursor + pages * pmmFrameSize < 2 ^ 32) :
    (x.reserve pages).2.Laid := by
  obtain ⟨hbrk, hnext, hres⟩ := reserve_spec hfit
  have hbase : (x.reserve pages).2.userBrkBase = x.userBrkBase := by
    unfold Task.reserve
    simp only
    split_ifs <;> rfl
  have hcursor : userMmapBase ≤ (x.reserve pages).2.mmapNext
      ∧ (x.reserve pages).2.mmapNext ≤ userStackLimit := by
    have hc := h.cursor
    rw [hnext]
    rcases hres with ⟨-, heq⟩ | ⟨-, heq, hlt⟩
    · rw [heq]
      exact hc
    · rw [heq]
      exact ⟨hc.1.trans (Nat.le_add_right _ _), hlt.le⟩
  exact ⟨hbase ▸ h.base, hbrk ▸ h.brk, hbrk ▸ h.heap, .inr hcursor.1, hcursor.2⟩

/-- The pages of a range that is taken are in the window. -/
theorem Laid.inWindow_reserve {pages base i : ℕ} (hfit : x.cursor + pages * pmmFrameSize < 2 ^ 32)
    (hb : (x.reserve pages).1 = some base) (hi : i < pages) : InWindow (pageAt base i) := by
  have hc := h.cursor
  obtain ⟨-, -, ⟨hnone, -⟩ | ⟨hsome, -, hlt⟩⟩ := reserve_spec hfit
  · rw [hnone] at hb
    cases hb
  · obtain rfl : x.cursor = base := Option.some_injective _ (hsome.symm.trans hb)
    unfold InWindow pageAt
    unfold userCodeBase userMmapBase userStackLimit userStackTop userStackPages pmmFrameSize at *
    omega

end

end Task

/-- The pages of a fixed range that does not wrap are in the window, when it starts there. -/
theorem inWindow_fixedBase {addr pages base i : ℕ} (hcode : userCodeBase ≤ pageBase addr)
    (hfit : pageBase addr + pages * pmmFrameSize < 2 ^ 32) (hb : fixedBase addr pages = some base)
    (hi : i < pages) : InWindow (pageAt base i) := by
  have hle : (i + 1) * pmmFrameSize ≤ pages * pmmFrameSize := Nat.mul_le_mul_right _ hi
  unfold fixedBase at hb
  rw [Nat.mod_eq_of_lt hfit] at hb
  split_ifs at hb with htop
  obtain rfl := Option.some_injective _ hb
  unfold InWindow pageAt
  unfold userStackTop pmmFrameSize at *
  omega

namespace Machine

variable {K : Kernel} {W : Prop} {m m' m'' : Machine} {ev : Event} {t : ℕ}

/-! ## What a step does to the tasks -/

/-- Nothing of the tasks changed but their states. -/
def SameTasks (m m' : Machine) : Prop :=
  ∀ u, m'.tasks u = { m.tasks u with state := (m'.tasks u).state }

theorem SameTasks.of_eq (h : m'.tasks = m.tasks) : SameTasks m m' := fun u => by rw [h]

theorem SameTasks.trans (h : SameTasks m m') (h' : SameTasks m' m'') : SameTasks m m'' :=
  fun u => by rw [h' u, h u]

theorem SameTasks.pageDir (h : SameTasks m m') (u : ℕ) :
    (m'.tasks u).pageDir = (m.tasks u).pageDir := by rw [h u]

theorem sameTasks_setState (t : ℕ) (state : TaskState) (m : Machine) :
    SameTasks m (m.setState t state) := by
  intro u
  unfold setState
  by_cases hu : u = t
  · subst hu
    rw [setTask_self]
  · rw [setTask_of_ne hu]

/-- A child is reaped by its parent in `task_exit` as by `SYS_WAIT4`. -/
theorem sameTasks_reapChild (t : ℕ) (m : Machine) (c : ℕ) : SameTasks m (reapChild t m c) := by
  unfold reapChild
  split_ifs
  · exact sameTasks_setState c .dead m
  · exact .of_eq rfl

theorem sameTasks_taskTerminate (t : ℕ) (m : Machine) : SameTasks m (m.taskTerminate t) := by
  have hrel : (m.surfaceReleaseTask t).tasks = m.tasks :=
    foldl_invariant (P := fun m' : Machine => m'.tasks = m.tasks)
      (fun m' k hm' => (releaseSurface_tasks (m := m')).1.trans hm') _ rfl
  exact (SameTasks.of_eq hrel).trans (sameTasks_setState t _ _)

theorem sameTasks_taskExit (t : ℕ) (m : Machine) : SameTasks m (m.taskExit t) := by
  have hreap : SameTasks m ((range' 1 (m.taskCount - 1)).foldl (reapChild t) m) :=
    foldl_invariant (P := SameTasks m)
      (fun m' c hm' => hm'.trans (sameTasks_reapChild t m' c)) _ (.of_eq rfl)
  exact hreap.trans (sameTasks_taskTerminate t _)

theorem sameTasks_pageFault (t : ℕ) (addr : UInt32) (write : Bool) (m : Machine) :
    SameTasks m (m.pageFault t addr write) := by
  unfold pageFault
  cases (m.tasks t).pageDir with
  | none => exact .of_eq rfl
  | some pd =>
    simp only
    cases tryHandleAnonFault (m.tasks t) pd addr.toNat m.vm with
    | some vm => exact .of_eq rfl
    | none =>
      simp only
      cases tryHandleCowFault pd addr.toNat write m.vm with
      | some vm => exact .of_eq rfl
      | none => exact sameTasks_taskExit t m

/-- The address spaces of the tasks are the same after a call that maps, or after a fault. -/
theorem sysMmap2_pageDir (t : ℕ) (a : MmapArgs) (m : Machine) (u : ℕ) :
    ((m.sysMmap2 t a).2.tasks u).pageDir = (m.tasks u).pageDir := by
  have hbase : ((m.mmapBase t a).2.tasks u).pageDir = (m.tasks u).pageDir := by
    unfold mmapBase
    split_ifs
    · rfl
    · exact setTask_pageDir ((m.tasks t).reserve_same a.pages).1 u
  rcases sysMmap2_same t a m with h | h
  · rw [h.tasks]
  · rw [h.tasks, hbase]

/-! ## The layout of every task -/

/-- What every task has reserved lies in the window. -/
def Laid (m : Machine) : Prop := ∀ t, (m.tasks t).Laid

section

variable (h : m.Laid)
include h

theorem Laid.same (hs : SameTasks m m') : m'.Laid := by
  intro u
  rw [hs u]
  exact ⟨(h u).base, (h u).brk, (h u).heap, (h u).next, (h u).mapped⟩

theorem Laid.of_eq (hs : m'.tasks = m.tasks) : m'.Laid := h.same (.of_eq hs)

theorem Laid.setVm (vm : Vm) : Laid { m with vm := vm } := h

theorem Laid.setSurf (k : ℕ) (x : Surface) : (m.setSurf k x).Laid := h

theorem Laid.setTask {x : Task} (hx : x.Laid) : (m.setTask t x).Laid := by
  intro u
  by_cases hu : u = t
  · subst hu
    rw [setTask_self]
    exact hx
  · rw [setTask_of_ne hu]
    exact h u

theorem Laid.claimSlot (stackOk : Bool) : (m.claimSlot stackOk).2.Laid := by
  unfold Machine.claimSlot
  split
  · rename_i i _
    exact (h.setVm _).setTask
      ⟨(h i).base, (h i).brk, (h i).heap, (h i).next, (h i).mapped⟩
  · split_ifs
    · exact h
    · exact h.of_eq rfl

theorem Laid.taskCreate (p : ℕ) (fdsOk stackOk : Bool) : (m.taskCreate p fdsOk stackOk).Laid := by
  have hclaim := h.claimSlot stackOk
  unfold Machine.taskCreate
  split_ifs
  · exact h
  · generalize m.claimSlot stackOk = r at hclaim
    obtain ⟨_ | i, m'⟩ := r
    · exact hclaim
    · exact (hclaim.of_eq rfl : Laid { m' with nextPid := m'.nextPid + 1 }).setTask Task.laid_zero

theorem Laid.taskFork (p : ℕ) (fdsOk stackOk : Bool) : (m.taskFork p fdsOk stackOk).Laid := by
  unfold Machine.taskFork
  cases (m.tasks p).pageDir with
  | none => exact h
  | some pd =>
    simp only
    split_ifs
    · exact h
    · obtain ⟨_ | child, vm⟩ := m.vm.vmmClonePdCow pd
      · exact h.setVm _
      · have hclaim := (h.setVm vm).claimSlot stackOk
        simp only
        generalize Machine.claimSlot stackOk { m with vm := vm } = r at hclaim
        obtain ⟨_ | i, m'⟩ := r
        · exact hclaim.setVm _
        · have hp := hclaim p
          exact (hclaim.of_eq rfl : Laid { m' with nextPid := m'.nextPid + 1 }).setTask
            ⟨hp.base, hp.brk, hp.heap, hp.next, hp.mapped⟩

end

/-- The end of an image is in the window. -/
def ImageOk (x : Image) : Prop := x.top = 0 ∨ userCodeBase ≤ x.top ∧ x.top ≤ userStackTop

theorem Laid.elfExec (h : m.Laid) {x : Image} (hx : ImageOk x) : (m.elfExec t x).Laid := by
  obtain ⟨vm, heq | ⟨pageDir, heq⟩⟩ := elfExec_cases t x m <;> rw [heq]
  · exact h.setVm vm
  · have hbase : x.top = 0 ∨ userCodeBase ≤ x.top := hx.imp_right And.left
    refine (h.setVm vm).setTask ⟨hbase, hbase, ?_, .inl rfl, Nat.zero_le _⟩
    rcases hx with h0 | hin
    · exact h0.trans_le (Nat.zero_le _)
    · exact hin.2

/-! ## The condition -/

/-- The page tables of the kernel are not in the window. -/
def TablesApart (K : Kernel) : Prop := ∀ virt, InWindow virt → ¬ K.Shared (pdIndex virt)

/-- The condition on the range of `SYS_MMAP2`: its end is not past `2 ^ 32`, and it starts in
the window if it is fixed. -/
def RangeOk (t : ℕ) (a : MmapArgs) (m : Machine) : Prop :=
  if a.fixed then userCodeBase ≤ pageBase a.addr.toNat
    ∧ pageBase a.addr.toNat + a.pages * pmmFrameSize < 2 ^ 32
  else (m.tasks t).cursor + a.pages * pmmFrameSize < 2 ^ 32

/-- **The condition on a step.** A break is a program's and not above the stack, the range of
a mapping is as `RangeOk` says, and an image ends in the window; apart from that the condition
is that of the invariant. There is none on a page fault, and none on `surface_map`. -/
def WindowOk (K : Kernel) (m : Machine) : Event → Prop
  | .brk t newBrk => (m.tasks t).userBrk ≠ 0 ∧ newBrk.toNat ≤ userStackTop
  | .mmap2 t a => m.Mmap2Ok K.Shared t a ∧ m.RangeOk t a
  | .fault .. => True
  | .surfaceMap .. => True
  | .exec t x => m.ExecOk K.Shared t x ∧ ImageOk x
  | ev => m.Guard K.Shared False ev

/-- The calls and the fault the property is about. -/
def IsCall : Event → Prop
  | .brk .. | .mmap2 .. | .mprotect .. | .munmap .. | .fault .. => True
  | _ => False

/-! ## One step -/

/-- The range of a surface does not wrap. -/
theorem Laid.surface_fits (h : m.Laid) {k : ℕ} (hk : (m.surf k).phys.length ≤ surfaceMaxPages) :
    (m.tasks t).cursor + (m.surf k).phys.length * pmmFrameSize < 2 ^ 32 := by
  have hc := (h t).cursor.2
  have hle := Nat.mul_le_mul_right pmmFrameSize hk
  have hroom : userStackLimit + surfaceMaxPages * pmmFrameSize < 2 ^ 32 := by decide
  omega

/-- The pages `SYS_MMAP2` maps are in the window. -/
theorem Laid.inWindow_mmap2 (h : m.Laid) {a : MmapArgs} (hok : m.RangeOk t a) {base i : ℕ}
    (hb : (m.mmapBase t a).1 = some base) (hi : i < a.pages) : InWindow (pageAt base i) := by
  unfold RangeOk at hok
  unfold mmapBase at hb
  by_cases hfix : a.fixed = true
  · rw [if_pos hfix] at hok hb
    exact inWindow_fixedBase hok.1 hok.2 hb hi
  · rw [if_neg hfix] at hok hb
    exact (h t).inWindow_reserve hok hb hi

/-- What the invariant needs follows from the condition and the layout. -/
theorem WindowOk.guard (hap : TablesApart K) (h : m.Inv K W anyPage) (hl : m.Laid)
    (hok : m.WindowOk K ev) : m.Guard K.Shared False ev := by
  cases ev with
  | mmap2 t a => exact hok.1
  | fault t addr write => exact fun pd _ _ hr => hap _ ((hl t).inWindow hr)
  | surfaceMap t k =>
    exact fun base hb p hp =>
      hap _ ((hl t).inWindow_reserve (hl.surface_fits (h.sized k)) hb hp)
  | exec t x => exact hok.1
  | brk t newBrk => trivial
  | _ => exact hok

/-- **A step keeps the layout.** -/
theorem Laid.act (h : m.Inv K W anyPage) (hl : m.Laid) (hok : m.WindowOk K ev) :
    (m.act ev).Laid := by
  have hgc : ∀ (m₁ : Machine) k, m₁.Laid → (m₁.surfaceGc k).Laid :=
    fun m₁ k h₁ => h₁.of_eq surfaceGc_tasks.1
  cases ev with
  | brk t newBrk => exact hl.setTask ((hl t).sysBrk hok.1 hok.2)
  | mmap2 t a =>
    have hbase : (m.mmapBase t a).2.Laid := by
      have hrange := hok.2
      unfold RangeOk at hrange
      unfold mmapBase
      by_cases hfix : a.fixed = true
      · rw [if_pos hfix]
        exact hl
      · rw [if_neg hfix] at hrange ⊢
        exact hl.setTask ((hl t).reserve hrange)
    rcases sysMmap2_same t a m with hs | hs
    · exact hl.of_eq hs.tasks
    · exact hbase.of_eq hs.tasks
  | mprotect t addr len write => exact hl.of_eq sysMprotect_same.tasks
  | munmap t addr len => exact hl.of_eq sysMunmap_same.tasks
  | fault t addr write => exact hl.same (sameTasks_pageFault t addr write m)
  | store t addr word => exact hl.of_eq userStore_same.tasks
  | fork t fdsOk stackOk => exact hl.taskFork t fdsOk stackOk
  | exec t x => exact hl.elfExec hok.2
  | exit t => exact hl.same (sameTasks_taskExit t m)
  | kill t => exact hl.same (sameTasks_taskTerminate t m)
  | wait4 t c => exact hl.same (sameTasks_reapChild t m c)
  | sigreturn t => exact hl.same (sameTasks_setState t .dead m)
  | create t fdsOk stackOk => exact hl.taskCreate t fdsOk stackOk
  | surfaceCreate t w y =>
    show (m.surfaceCreate t w y).Laid
    unfold surfaceCreate
    split_ifs
    · exact hl
    · exact hl
    · cases (range surfaceMax).find? (fun k => !(m.surf k).inUse) with
      | none => exact hl
      | some k =>
        simp only
        obtain ⟨_ | _, phys, vm⟩ := loop surfacePage (range (surfacePages w y)) ([], m.vm)
        · exact hl.setVm _
        · exact (hl.setVm vm).setSurf k _
  | surfaceMap t k =>
    show ((m.surfaceMap k t).2).Laid
    have hres := (hl t).reserve (hl.surface_fits (h.sized k))
    unfold surfaceMap
    cases (m.tasks t).pageDir with
    | none => exact hl
    | some pd =>
      simp only
      split_ifs
      · exact hl
      · exact hl
      · generalize (m.tasks t).reserve (m.surf k).phys.length = r at hres
        obtain ⟨_ | base, x⟩ := r
        · exact hl.setTask hres
        · simp only
          cases fillSlot ⟨t, base⟩ (m.surf k).map with
          | none => exact hl
          | some map => exact ((hl.setVm _).setTask hres).setSurf k _
  | surfaceUnmap t k =>
    show (m.surfaceUnmap k t).Laid
    unfold surfaceUnmap
    simp only
    split_ifs
    · exact hl
    · rcases takeSlot t (m.surf k).map with _ | ⟨x, map⟩
      · exact hgc m k hl
      · exact hgc _ k ((hl.setVm _).setSurf k _)
  | surfaceDestroy t k =>
    show (m.surfaceDestroy k t).Laid
    unfold surfaceDestroy
    simp only
    split_ifs
    · exact hl
    · exact hgc _ k (hl.setSurf k _)
  | cacheRead t path pidx fill => exact hl.of_eq (pcGet_same path pidx fill m).tasks
  | cacheInvalidate t path => exact hl.of_eq rfl
  | cacheDropAll t => exact hl.of_eq rfl

/-- **A step keeps the invariant and the layout.** -/
theorem Inv.window_step (hap : TablesApart K) (h : m.Inv K False anyPage) (hl : m.Laid)
    (hok : m.WindowOk K ev) : (m.step ev).Inv K False anyPage ∧ (m.step ev).Laid := by
  refine ⟨h.step (hok.guard hap h hl) (carries_anyPage m ev), ?_⟩
  unfold Machine.step
  split_ifs
  · exact hl
  · exact hl.act h hok

/-- The place is in the window, or there was a page at it. -/
def Within (m : Machine) (pd i j : ℕ) (_ : Entry) : Prop :=
  InWindow (placeAddr i j) ∨ ∃ e, m.vm.Maps pd i j e

/-- **The calls and the fault map in the window only.** -/
theorem Laid.carries (hl : m.Laid) (hok : m.WindowOk K ev) (hcall : IsCall ev) :
    m.Carries m.Within ev := by
  have hin : ∀ {virt pd e}, InWindow virt → m.Within pd (pdIndex virt) (ptIndex virt) e :=
    fun hv => .inl ((inWindow_placeAddr _).2 hv)
  cases ev with
  | brk t newBrk => trivial
  | mmap2 t a => exact fun pd base _ hb _ i hi f => hin (hl.inWindow_mmap2 hok.2 hb hi)
  | mprotect t addr len write => exact fun pd _ i _ e he => .inr ⟨e, he⟩
  | munmap t addr len => trivial
  | fault t addr write =>
    exact fun pd _ => ⟨fun _ hr f => hin ((hl t).inWindow hr), fun _ e f he _ => .inr ⟨e, he⟩⟩
  | _ => exact absurd hcall id

/-- The calls and the fault leave every task its address space. -/
theorem pageDir_act (hcall : IsCall ev) (u : ℕ) :
    ((m.act ev).tasks u).pageDir = (m.tasks u).pageDir := by
  cases ev with
  | brk t newBrk => exact setTask_pageDir (sysBrk_same (m.tasks t) newBrk).1 u
  | mmap2 t a => exact sysMmap2_pageDir t a m u
  | mprotect t addr len write => exact congrArg (fun x => (x u).pageDir) sysMprotect_same.tasks
  | munmap t addr len => exact congrArg (fun x => (x u).pageDir) sysMunmap_same.tasks
  | fault t addr write => exact (sameTasks_pageFault t addr write m).pageDir u
  | _ => exact absurd hcall id

end Machine

open Machine

/-- No task has reserved anything at boot. -/
theorem Boot.laid (b : Boot) : b.machine.Laid := by
  intro t
  show Task.Laid (Function.update (fun _ => Task.unused) 0 ⟨.live, none, 0, 0, 0, 1, 0⟩ t)
  by_cases ht : t = 0
  · subst ht
    exact Task.laid_zero
  · rw [Function.update_of_ne ht]
    exact Task.laid_zero

/-- **The window is kept.** After every run from boot in which each step meets the condition,
and for every step after it that does: the tables that the kernel shares are those there
were, and if the step is one of the calls or a page fault, a user page that is present
outside the window was there before it. The window has no table of the kernel in it. -/
theorem window_kept (b : Boot) (hap : TablesApart b.kernel) (es : List Event) (ev : Event)
    (hok : Meets (WindowOk b.kernel) Machine.step b.machine (es ++ [ev])) :
    (∀ i j, b.kernel.Shared i →
      ((b.machine.run es).step ev).vm.mem (b.dir i).frame j
        = (b.machine.run es).vm.mem (b.dir i).frame j)
      ∧ (IsCall ev → ∀ t virt e, virt < 2 ^ 32 → ¬ InWindow virt →
        ((b.machine.run es).step ev).entryAt t virt = some e → e.present = true →
          e.user = true →
            ∃ e₀, (b.machine.run es).entryAt t virt = some e₀ ∧ e₀.present = true
              ∧ e₀.user = true) := by
  obtain ⟨hrun, hev, -⟩ := meets_append.1 hok
  obtain ⟨hinv, hl⟩ : (b.machine.run es).Inv b.kernel False anyPage ∧ (b.machine.run es).Laid :=
    Meets.invariant (P := fun m : Machine => m.Inv b.kernel False anyPage ∧ m.Laid)
      (fun m ev hm hev => hm.1.window_step hap hm.2 hev) ⟨b.inv False anyPage, b.laid⟩ hrun
  change (b.machine.run es).WindowOk b.kernel ev at hev
  generalize b.machine.run es = m at hinv hl hev
  have hinv' := (hinv.window_step hap hl hev).1
  refine ⟨fun i j hi => ?_, fun hcall t virt e hv hout he hp hu => ?_⟩
  · -- such a table is not managed, so that it is as it was at boot
    have hframe : (b.dir i).frame ∉ b.kernel.frames := by
      rcases b.kernel.entry i with h0 | ⟨-, hl | hf⟩
      · have hpres : (b.dir i).present = true := hi.1
        rw [show b.dir i = Entry.zero from h0] at hpres
        cases hpres
      · exact absurd (hi.2.symm.trans hl) Bool.false_ne_true
      · exact hf
    rw [hinv'.vm.kernel _ hframe, hinv.vm.kernel _ hframe]
  · have hwithin : (m.step ev).Inv b.kernel False m.Within :=
      (hinv.known.imp (fun pd _ i j e he => .inr ⟨e, he.2⟩)).step (hev.guard hap hinv hl)
        (hl.carries hev hcall)
    have hdir : ((m.step ev).tasks t).pageDir = (m.tasks t).pageDir := by
      unfold step
      split_ifs
      · rfl
      · exact pageDir_act hcall t
    cases hd : (m.tasks t).pageDir with
    | none =>
      unfold entryAt at he
      rw [hdir, hd] at he
      cases he
    | some pd =>
      rw [hd] at hdir
      have hmaps := hwithin.maps_of_entryAt hv hdir he hp hu
      rcases (hwithin.vm.maps pd (mem_pds hdir) _ _ e hmaps).2 with hin | ⟨e₀, he₀⟩
      · exact absurd ((inWindow_placeAddr virt).1 hin) hout
      · obtain ⟨-, -, -, -, hpres⟩ := id he₀
        exact ⟨e₀, entryAt_of_maps hd he₀, hpres, (hinv.vm.maps pd (mem_pds hd) _ _ e₀ he₀).1.1⟩

/-- The program of the small boot moves its break up and touches the new page. -/
theorem window_kept_small :
    Meets (WindowOk Boot.small.kernel) Machine.step Boot.small.machine
        (startRun ++ [.brk 1 0x40002000] ++ [.fault 1 0x40001000 true])
      ∧ ∀ t virt e, virt < 2 ^ 32 → ¬ InWindow virt →
        ((Boot.small.machine.run (startRun ++ [.brk 1 0x40002000])).step
          (.fault 1 0x40001000 true)).entryAt t virt = some e → e.present = true →
          e.user = true →
            ∃ e₀, (Boot.small.machine.run (startRun ++ [.brk 1 0x40002000])).entryAt t virt = some e₀
              ∧ e₀.present = true ∧ e₀.user = true := by
  have hok : Meets (WindowOk small.kernel) step small.machine
      (startRun ++ [.brk 1 0x40002000] ++ [.fault 1 0x40001000 true]) := by
    obtain ⟨h₁, h₂, -⟩ := meets_startRun (W := False)
    refine ⟨h₁, ⟨h₂, .inr (by decide)⟩, ⟨?_, by decide⟩, trivial, trivial⟩
    set_option maxRecDepth 1000000 in decide +kernel
  exact ⟨hok, (window_kept small (fun _ _ => small_not_shared _) _ _ hok).2 trivial⟩

/-- A boot with a page table of the kernel at the top of the address space. -/
def Boot.tabled : Boot where
  kernelPhysEnd := 0x200000
  magic := multiboot2BootloaderMagic
  tags := [.mmap [⟨0x400000, 0x20000, 1⟩]]
  dir := fun i => if i = 1000 then ⟨1, true, true, false, false, false, 0⟩ else Entry.zero
  mem := fun f => if f = 1 then fun _ => ⟨5, true, true, false, false, false, 0⟩ else zeroWords
  nodup := Boot.small.nodup
  entry := fun i => by
    split_ifs
    · exact .inr ⟨rfl, .inr (by decide +kernel)⟩
    · exact .inl rfl
  private_pages := fun i j _ _ => by
    split_ifs <;> exact ⟨rfl, rfl⟩

/-- One page, anonymous, at `0x10000000` with `MAP_FIXED`. -/
def fixedPage : MmapArgs :=
  ⟨0x10000000, 0x1000, true, true, true, none, 0, fun _ => zeroWords, fun _ => none⟩

set_option maxRecDepth 1000000 in
/-- **The window is left.** `SYS_MUNMAP` clears an entry of a table that the kernel shares, a
fault after `SYS_BRK` maps a page above the stack, and `MAP_FIXED` maps one below
`USER_CODE_BASE`. -/
theorem window_left :
    let m := Boot.tabled.machine.run startRun
    (Boot.tabled.kernel.Shared 1000
      ∧ (m.vm.mem 1 0).present = true
      ∧ ((m.step (.munmap 1 0xFA000000 0x1000)).vm.mem 1 0).present = false)
    ∧ (¬ InWindow 0xC0000000 ∧ m.entryAt 1 0xC0000000 = none
      ∧ ((m.run [.brk 1 0xD0000000, .fault 1 0xC0000000 true]).entryAt 1 0xC0000000).any
        (fun e => e.present && e.user) = true)
    ∧ (¬ InWindow 0x10000000 ∧ m.entryAt 1 0x10000000 = none
      ∧ ((m.step (.mmap2 1 fixedPage)).entryAt 1
        0x10000000).any (fun e => e.present && e.user) = true) := by
  refine ⟨⟨⟨rfl, rfl⟩, ?_⟩, ?_⟩
  · decide +kernel
  · decide +kernel

end Makar
