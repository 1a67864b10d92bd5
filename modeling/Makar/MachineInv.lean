import Makar.Machine
import Makar.VmClone

/-!
# The invariant of the machine

The address spaces of the machine are those of its tasks, dead ones included
until their slot is used again; the loose references are those of the page cache
and of the surfaces. `Machine.Inv` says that these are in order, that no two
tasks have one address space, and how surfaces are mapped: a page of a surface is
mapped only where one of the map slots of the surface says so, and a task that
has a slot is alive and runs in the address space the slot is about. The last two
are what makes it right that `surface_gc` gives the frames back when there is no
slot left, although no page of a surface is counted.

The parameter `O` is what a property of pages asks of every page that is mapped;
it says nothing where only the references matter.

This module has the calls that change nothing but memory: `SYS_MPROTECT`,
`SYS_MUNMAP`, the page faults, and stores.
-/

namespace Makar

open Multiset

/-- The reference behind a frame number as the page cache keeps it: zero and
the number of a failed allocation are none. -/
def frameRef (f : ℕ) : Multiset ℕ := if f = 0 ∨ f = errorFrame then 0 else {f}

/-- The references of the page cache. -/
def pcRefs (l : List PcPage) : Multiset ℕ := (l.map (fun p => frameRef p.frame)).sum

/-- A reservation changes only the layout. -/
theorem Task.reserve_same (x : Task) (pages : ℕ) :
    (x.reserve pages).2.pageDir = x.pageDir ∧ (x.reserve pages).2.state = x.state := by
  unfold Task.reserve
  simp only []
  split_ifs <;> exact ⟨rfl, rfl⟩

namespace Machine

/-- The address spaces. -/
def pds (m : Machine) : Set ℕ := {pd | ∃ t, (m.tasks t).pageDir = some pd}

/-- The frames of the surfaces. -/
def surfFrames (m : Machine) : Set ℕ := {f | ∃ k, f ∈ (m.surf k).phys}

/-- The references of a table of surfaces. -/
def surfRefs (surf : ℕ → Surface) : Multiset ℕ :=
  ((List.range surfaceMax).map (fun k => ((surf k).phys : Multiset ℕ))).sum

/-- The references that are not in an address space. -/
def loose (m : Machine) : Multiset ℕ := pcRefs m.cache + surfRefs m.surf

/-- A map slot of the surface is about the page of the address space. -/
def SlotAt (m : Machine) (pd i j k : ℕ) : Prop :=
  ∃ x, some x ∈ (m.surf k).map ∧ (m.tasks x.task).pageDir = some pd
    ∧ ∃ p, p < (m.surf k).phys.length
      ∧ i = pdIndex (pageAt x.baseVa p) ∧ j = ptIndex (pageAt x.baseVa p)

/-- What is known of every page: it is a user page, and if it is a surface's
there is a slot for it. -/
def PageOk (m : Machine) (pd i j : ℕ) (e : Entry) : Prop :=
  e.user = true ∧ ∀ k, e.frame ∈ (m.surf k).phys → m.SlotAt pd i j k

/-- The predicate of the pages, with what a property asks of them. -/
def Pages (m : Machine) (O : ℕ → ℕ → ℕ → Entry → Prop) (pd i j : ℕ) (e : Entry) : Prop :=
  m.PageOk pd i j e ∧ O pd i j e

/-- The part of the invariant that is about the tables of the kernel. -/
structure Shape (K : Kernel) (m : Machine) : Prop where
  /-- An address space is one task's. -/
  dirs : ∀ t u pd, (m.tasks t).pageDir = some pd → (m.tasks u).pageDir = some pd → t = u
  /-- Slots past the end of the pool have no address space. -/
  unused : ∀ t, m.taskCount ≤ t → (m.tasks t).pageDir = none ∧ (m.tasks t).state = .dead
  /-- A slot of the surface table that is not in use is empty. -/
  free : ∀ k, (m.surf k).inUse = false → m.surf k = Surface.empty
  /-- The surface table has `SURFACE_MAX` slots. -/
  range : ∀ k, surfaceMax ≤ k → (m.surf k).inUse = false
  /-- A map slot is a live task's, with an address space of its own, and about
  pages of its own. -/
  slots : ∀ k x, some x ∈ (m.surf k).map →
    (m.tasks x.task).state = .live ∧ (m.tasks x.task).pageDir.isSome = true
      ∧ ∀ p, p < (m.surf k).phys.length → ¬ K.Shared (pdIndex (pageAt x.baseVa p))
  /-- A page in the cache has a frame. -/
  cached : ∀ p ∈ m.cache, p.valid = true → p.frame ≠ 0 ∧ p.frame ≠ errorFrame
  /-- A surface has at most `SURFACE_MAX_PAGES` pages. -/
  sized : ∀ k, (m.surf k).phys.length ≤ surfaceMaxPages

/-- **The invariant of the machine.** -/
structure Inv (K : Kernel) (W : Prop) (O : ℕ → ℕ → ℕ → Entry → Prop) (m : Machine) : Prop
    extends Shape K m where
  /-- The address spaces are in order. -/
  vm : m.vm.Inv K W m.surfFrames (m.Pages O) m.pds m.loose

variable {K : Kernel} {W : Prop} {O O' : ℕ → ℕ → ℕ → Entry → Prop} {m : Machine} {v : Vm}
  {t k pd pt i j f : ℕ} {e : Entry}

theorem pageAt_lt (base i : ℕ) : pageAt base i < 2 ^ 32 := Nat.mod_lt _ (by decide)

/-- The page of a task's directory. -/
theorem mem_pds (h : (m.tasks t).pageDir = some pd) : pd ∈ m.pds := ⟨t, h⟩

/-- A leaf of the same frame is as good a page. -/
theorem PageOk.of_frame {e' : Entry} (h : m.PageOk pd i j e) (hu : e'.user = true)
    (hf : e'.frame = e.frame) : m.PageOk pd i j e' := by
  refine ⟨hu, fun k hk => h.2 k ?_⟩
  rw [← hf]
  exact hk

/-- A user page that is no surface's is in order. -/
theorem pageOk_of_not_mem (hu : e.user = true) (hf : e.frame ∉ m.surfFrames) :
    m.PageOk pd i j e :=
  ⟨hu, fun k hk => absurd ⟨k, hk⟩ hf⟩

/-- The tables of the kernel say nothing about memory. -/
theorem Shape.setVm (h : m.Shape K) (v : Vm) : ({ m with vm := v } : Machine).Shape K :=
  ⟨h.dirs, h.unused, h.free, h.range, h.slots, h.cached, h.sized⟩

namespace Inv

/-- Memory may change as its invariant says. -/
theorem setVm (h : m.Inv K W O) (hv : v.Inv K W m.surfFrames (m.Pages O) m.pds m.loose) :
    ({ m with vm := v } : Machine).Inv K W O :=
  ⟨h.toShape.setVm v, hv⟩

/-- What a property asks of the pages may be weakened. -/
theorem imp (h : m.Inv K W O) (hO : ∀ pd ∈ m.pds, ∀ i j e, O pd i j e → O' pd i j e) :
    m.Inv K W O' :=
  ⟨h.toShape, h.vm.imp (fun pd hpd i j e hp => ⟨hp.1, hO pd hpd i j e hp.2⟩)⟩

end Inv

/-- The frames of a surface are in the surface table. -/
theorem Shape.mem_surfRefs (h : m.Shape K) (hf : f ∈ m.surfFrames) : f ∈ surfRefs m.surf := by
  obtain ⟨k, hk⟩ := hf
  have hlt : k < surfaceMax := by
    by_contra hge
    have he := h.free k (h.range k (Nat.not_lt.1 hge))
    rw [he] at hk
    exact absurd hk List.not_mem_nil
  have hle : ((m.surf k).phys : Multiset ℕ) ≤ surfRefs m.surf :=
    List.single_le_sum (fun N _ => zero_le) _
      (List.mem_map.2 ⟨k, List.mem_range.2 hlt, rfl⟩)
  exact mem_of_le hle (mem_coe.2 hk)

section

variable {x : Task} (hd : x.pageDir = (m.tasks t).pageDir)
include hd

/-- A task that keeps its address space leaves all address spaces as they
are. -/
theorem setTask_pageDir (u : ℕ) : ((m.setTask t x).tasks u).pageDir = (m.tasks u).pageDir := by
  unfold setTask
  by_cases hu : u = t
  · subst hu
    simpa using hd
  · simp [hu]

theorem setLayout_pds : (m.setTask t x).pds = m.pds := by
  unfold pds
  simp only [setTask_pageDir hd]

end

namespace Inv

/-- The layout of a task's address space may change. -/
theorem setLayout (h : m.Inv K W O) (x : Task) (hd : x.pageDir = (m.tasks t).pageDir)
    (hs : x.state = (m.tasks t).state) : (m.setTask t x).Inv K W O := by
  have hdir := setTask_pageDir hd
  have hstate : ∀ u, ((m.setTask t x).tasks u).state = (m.tasks u).state := by
    intro u
    unfold setTask
    by_cases hu : u = t
    · subst hu
      simpa using hs
    · simp [hu]
  have hpages : (m.setTask t x).Pages O = m.Pages O := by
    funext pd i j e
    unfold Pages PageOk SlotAt
    simp only [hdir]
    rfl
  refine ⟨⟨?_, ?_, h.free, h.range, ?_, h.cached, h.sized⟩, ?_⟩
  · intro u u' pd
    rw [hdir, hdir]
    exact h.dirs u u' pd
  · intro u hu
    rw [hdir, hstate]
    exact h.unused u hu
  · intro k y hy
    rw [hdir, hstate]
    exact h.slots k y hy
  · rw [setLayout_pds hd, hpages]
    exact h.vm

/-! ## `SYS_MPROTECT` -/

/-- **A range of pages is given new flags.** Under the flag `W` a page that is
made writable must have been referred to once. -/
theorem protectPages (h : m.Inv K W O) (hpd : pd ∈ m.pds) (base : ℕ) (w : Bool) (is : List ℕ)
    (hK : ∀ i ∈ is, ¬ K.Shared (pdIndex (pageAt base i)))
    (hW : W → w = true → ∀ i ∈ is, ∀ e,
      m.vm.Maps pd (pdIndex (pageAt base i)) (ptIndex (pageAt base i)) e →
        e.frame ∉ m.surfFrames → m.vm.refs e.frame = 1)
    (hO : ∀ i ∈ is, ∀ e, m.vm.Maps pd (pdIndex (pageAt base i)) (ptIndex (pageAt base i)) e →
      O pd (pdIndex (pageAt base i)) (ptIndex (pageAt base i)) (Entry.leaf e.frame w)) :
    ({ m with
      vm := is.foldl (fun vm i => vm.vmmProtectPage pd (pageAt base i) w) m.vm } : Machine).Inv
      K W O := by
  -- the loop never changes which frame is where, so the conditions stay what they were
  let P := fun pd i j e => m.Pages O pd i j e ∧ ∃ e₀, m.vm.Maps pd i j e₀ ∧ e₀.frame = e.frame
  have hstart : m.vm.Inv K W m.surfFrames P m.pds m.loose :=
    { h.vm with maps := fun pd hpd i j e hm => ⟨h.vm.maps pd hpd i j e hm, e, hm, rfl⟩ }
  have hloop : (is.foldl (fun vm i => vm.vmmProtectPage pd (pageAt base i) w) m.vm).Inv K W
      m.surfFrames P m.pds m.loose
        ∧ (is.foldl (fun vm i => vm.vmmProtectPage pd (pageAt base i) w) m.vm).pmm = m.vm.pmm := by
    refine foldl_invariant_mem (P := fun v : Vm => v.Inv K W m.surfFrames P m.pds m.loose
      ∧ v.pmm = m.vm.pmm) is (fun v i hi hv => ?_) ⟨hstart, rfl⟩
    have hstep := hv.1.vmmProtectPage hpd (pageAt_lt base i) (hK i hi) (w := w) ?_ ?_
    · exact ⟨hstep.1, hstep.2.trans hv.2⟩
    · intro e hm
      obtain ⟨hp, e₀, hm₀, hf⟩ := hv.1.maps pd hpd _ _ e hm
      refine ⟨⟨hp.1.of_frame rfl rfl, ?_⟩, e₀, hm₀, hf⟩
      rw [← hf]
      exact hO i hi e₀ hm₀
    · intro hw hwr e hm hfS
      obtain ⟨-, e₀, hm₀, hf⟩ := hv.1.maps pd hpd _ _ e hm
      have hone := hW hw hwr i hi e₀ hm₀ (by rw [hf]; exact hfS)
      unfold Vm.refs at hone ⊢
      rw [hv.2, ← hf]
      exact hone
  exact h.setVm (hloop.1.imp (fun pd _ i j e hp => hp.1))

/-! ## `SYS_MUNMAP` -/

/-- **A range of pages is removed**, none of which is a surface's. -/
theorem unmapFreePages (h : m.Inv K W O) (hpd : pd ∈ m.pds) (base : ℕ) (is : List ℕ)
    (hK : ∀ i ∈ is, ¬ K.Shared (pdIndex (pageAt base i)))
    (hS : ∀ i ∈ is, ∀ e, m.vm.Maps pd (pdIndex (pageAt base i)) (ptIndex (pageAt base i)) e →
      e.frame ∉ m.surfFrames) :
    ({ m with
      vm := is.foldl (fun vm i => vm.vmmUnmapAndFree pd (pageAt base i)) m.vm } : Machine).Inv
      K W O := by
  refine h.setVm (foldl_invariant_mem (P := fun v : Vm =>
    v.Inv K W m.surfFrames (m.Pages O) m.pds m.loose
      ∧ ∀ pd ∈ m.pds, ∀ i j e, v.Maps pd i j e → m.vm.Maps pd i j e) is
    (fun v i hi hv => ?_) ⟨h.vm, fun _ _ _ _ _ hm => hm⟩).1
  obtain ⟨hinv, -, hmaps⟩ := hv.1.vmmUnmapAndFree hpd (pageAt_lt base i) (hK i hi)
    (fun e hm => hS i hi e (hv.2 pd hpd _ _ e hm))
  refine ⟨hinv, fun pd' hpd' i' j' e hm => ?_⟩
  exact hv.2 pd' hpd' i' j' e ((hmaps pd' hpd' i' j' e).1 hm).1

/-! ## Page faults -/

theorem pageBase_index (addr : ℕ) :
    pdIndex (pageBase addr) = pdIndex addr ∧ ptIndex (pageBase addr) = ptIndex addr := by
  unfold pdIndex ptIndex pageBase tableSize pmmFrameSize
  omega

variable {addr : ℕ}

theorem pageBase_lt (h : addr < 2 ^ 32) : pageBase addr < 2 ^ 32 :=
  (Nat.div_mul_le_self addr pmmFrameSize).trans_lt h

/-- What is mapped is present. -/
theorem pagePresent_of_maps {e : Entry} (hm : v.Maps pd (pdIndex addr) (ptIndex addr) e) :
    pagePresent pd addr v = true := by
  obtain ⟨pt, hT, -, he, hp⟩ := hm
  unfold pagePresent
  simp only [hT.2.1.1, hT.2.2, he, hp, Bool.or_true, Bool.and_self]

/-- **`try_handle_anon_fault`** maps a page of zeros where one was missing and reserved, so that
all pages stay. -/
theorem tryHandleAnonFault {x : Task} (h : m.Inv K W O) (hpd : pd ∈ m.pds) (ha : addr < 2 ^ 32)
    (hK : pagePresent pd addr m.vm = false → Reserved x addr → ¬ K.Shared (pdIndex addr))
    (hv : Machine.tryHandleAnonFault x pd addr m.vm = some v)
    (hO : pagePresent pd addr m.vm = false → Reserved x addr →
      ∀ f, O pd (pdIndex addr) (ptIndex addr) (Entry.leaf f true)) :
    ({ m with vm := v } : Machine).Inv K W O
      ∧ ∀ pd' ∈ m.pds, ∀ i j e, m.vm.Maps pd' i j e → v.Maps pd' i j e := by
  unfold Machine.tryHandleAnonFault at hv
  split_ifs at hv with hp hr
  rcases h.vm.allocFrame with heq | ⟨phys, u, heq, hal, hu⟩
  · rw [heq] at hv
    cases hv
  · rw [heq] at hv
    injection hv with hv
    subst hv
    have hmiss := Bool.not_eq_true _ ▸ hp
    obtain ⟨h₁, h₂⟩ := pageBase_index addr
    obtain ⟨hinv, hstay⟩ := h.vm.newPage hal hu hpd (pageBase_lt ha) (h₁ ▸ hK hmiss hr) zeroWords
      (fun hfS => by rw [h₁, h₂]; exact ⟨pageOk_of_not_mem rfl hfS, hO hmiss hr phys⟩)
    refine ⟨h.setVm hinv, fun pd' hpd' i j e hm => hstay pd' hpd' i j e hm ?_⟩
    rintro ⟨rfl, rfl, rfl⟩
    rw [h₁, h₂] at hm
    exact hp (pagePresent_of_maps hm)

/-- **`try_handle_cow_fault`** makes the page writable: the one there is when
nobody else refers to it, a copy otherwise. -/
theorem tryHandleCowFault {w : Bool} (h : m.Inv K W O) (hpd : pd ∈ m.pds)
    (ha : addr < 2 ^ 32) (hv : Machine.tryHandleCowFault pd addr w m.vm = some v)
    (hO : w = true → ∀ e f, m.vm.Maps pd (pdIndex addr) (ptIndex addr) e → e.cow = true →
      O pd (pdIndex addr) (ptIndex addr) (e.promote f)) :
    ({ m with vm := v } : Machine).Inv K W O
      ∧ (w = true ∧ ∃ e, m.vm.Maps pd (pdIndex addr) (ptIndex addr) e ∧ e.cow = true)
      ∧ ∀ pd' ∈ m.pds, ∀ i j e, m.vm.Maps pd' i j e → ¬ Vm.Inv.At pd addr pd' i j →
        v.Maps pd' i j e := by
  unfold Machine.tryHandleCowFault at hv
  split_ifs at hv with hgo
  rw [Bool.and_eq_true] at hgo
  by_cases hK : K.Shared (pdIndex addr)
  · -- a page of the kernel is not copy-on-write
    cases ht : m.vm.tableOf pd addr with
    | none =>
      rw [ht] at hv
      cases hv
    | some pt =>
      rw [ht] at hv
      have hcow := (h.vm.tableOf_shared hpd ha hK ht (ptIndex addr)).2
      simp only [hcow, Bool.and_false, Bool.false_eq_true, if_false] at hv
      cases hv
  rcases h.vm.tableOf hpd ha hK with ⟨ht, -⟩ | ⟨pt, ht, hT⟩
  · rw [ht] at hv
    cases hv
  simp only [ht] at hv
  obtain ⟨e, he⟩ : ∃ e, e = m.vm.mem pt (ptIndex addr) := ⟨_, rfl⟩
  rw [← he] at hv
  by_cases hc : (e.present && e.cow) = true
  · rw [if_pos hc] at hv
    rw [Bool.and_eq_true] at hc
    have hm : m.vm.Maps pd (pdIndex addr) (ptIndex addr) e :=
      ⟨pt, hT, Vm.ptIndex_lt addr, he.symm, hc.1⟩
    have hpage := h.vm.maps pd hpd _ _ e hm
    have hpos := h.vm.refs_of_maps hpd hm
    rw [h.vm.refCount_eq] at hv
    refine and_left_comm.1 ⟨⟨hgo.1, e, hm, hc.2⟩, ?_⟩
    unfold Vm.Inv.At
    by_cases hrc : m.vm.refs e.frame ≤ 1
    · rw [if_pos hrc] at hv
      injection hv with hv
      subst hv
      refine ⟨h.setVm (h.vm.reflagEntry hpd hT (Vm.ptIndex_lt addr) (he ▸ hc.1) (he ▸ rfl)
        (fun _ => ⟨hpage.1.of_frame hpage.1.1 rfl, hO hgo.1 e e.frame hm hc.2⟩)
        (fun _ _ _ _ => le_antisymm hrc hpos)), fun pd' hpd' i j e hme hat => ?_⟩
      rw [h.vm.maps_setWord hpd hT (Vm.ptIndex_lt addr) hpd', if_neg hat]
      exact hme
    · rw [if_neg hrc] at hv
      have hfS : e.frame ∉ m.surfFrames := by
        intro hS
        rw [(h.vm.surface _ hS).2] at hrc
        omega
      rcases h.vm.allocFrame with heq | ⟨new, u, heq, hal, hu⟩
      · rw [heq] at hv
        cases hv
      · rw [heq] at hv
        injection hv with hv
        have hloose := mem_cons_self new m.loose
        have hS : ∀ f ∈ m.surfFrames, f ∈ m.loose := fun f hf => (h.vm.surface f hf).1
        have hnewS := hu.not_mem_surface hS
        have hfill : (u.setFrame new (u.mem e.frame)).Inv K W m.surfFrames (m.Pages O) m.pds
            ({new} + m.loose) :=
          hu.setFrame (hu.mem_frames hal.one.ge) (hu.data_of_mem hloose) _
        have hTu : u.Table pd (pdIndex addr) pt :=
          (Vm.Inv.table_congr hal.kpd (congrFun hal.mem pd)).2 hT
        have hptnew : pt ≠ new := by
          rintro rfl
          exact (hu.data_of_mem hloose).2 pd hpd _ hTu
        have hpdnew : pd ≠ new := fun hc => (hu.data_of_mem hloose).1 (hc ▸ hpd)
        have hkpd : (u.setFrame new (u.mem e.frame)).kpd = u.kpd := rfl
        have hTf : (u.setFrame new (u.mem e.frame)).Table pd (pdIndex addr) pt :=
          (Vm.Inv.table_congr hkpd (Vm.setFrame_mem_of_ne hpdnew)).2 hTu
        have hword : (u.setFrame new (u.mem e.frame)).mem pt (ptIndex addr) = e := by
          rw [Vm.setFrame_mem_of_ne hptnew, hal.mem, he]
        have hput := hfill.replaceEntry (e := e.promote new) hpd hTf (Vm.ptIndex_lt addr) hS
          (fun _ _ => mem_singleton_self new)
          (.inr ⟨by rw [hword]; exact hc.1, by rw [hword]; exact hfS, rfl⟩)
          (fun _ => ⟨pageOk_of_not_mem hpage.1.1 hnewS, hO hgo.1 e new hm hc.2⟩)
          (fun _ _ _ _ => hal.one)
        rw [hword, singleton_add] at hput
        subst hv
        -- the count goes down before the entry is written, which is all the same
        have hfree := hput.freeFrame hfS
        refine ⟨h.setVm hfree, fun pd' hpd' i j e' hme hat => ?_⟩
        refine (Vm.maps_of_mem rfl rfl).2 ((hfill.maps_setWord (e := e.promote new) hpd hTf
          (Vm.ptIndex_lt addr) hpd').2 ?_)
        rw [if_neg hat, Vm.Inv.maps_setFrame (hu.data_of_mem hloose) _ hpd']
        exact (Vm.maps_of_mem hal.mem hal.kpd).2 hme
  · rw [if_neg hc] at hv
    cases hv

/-! ## Stores -/

/-- **A store** writes to data. -/
theorem userStore (h : m.Inv K W O) (t : ℕ) (addr : UInt32) (word : Entry) :
    (m.userStore t addr word).Inv K W O := by
  have ha : addr.toNat < 2 ^ 32 := addr.toNat_lt
  unfold Machine.userStore
  cases hd : (m.tasks t).pageDir with
  | none => exact h
  | some pd =>
    have hpd : pd ∈ m.pds := mem_pds hd
    simp only []
    cases ht : m.vm.tableOf pd addr.toNat with
    | none => exact h
    | some pt =>
      simp only []
      split_ifs with hc
      · rw [Bool.and_eq_true, Bool.and_eq_true] at hc
        by_cases hK : K.Shared (pdIndex addr.toNat)
        · have hu := (h.vm.tableOf_shared hpd ha hK ht (ptIndex addr.toNat)).1
          rw [hc.1.2] at hu
          cases hu
        · rcases h.vm.tableOf hpd ha hK with ⟨hn, -⟩ | ⟨pt', ht', hT⟩
          · rw [hn] at ht
            cases ht
          · rw [ht'] at ht
            injection ht with heq
            subst heq
            have hm : m.vm.Maps pd (pdIndex addr.toNat) (ptIndex addr.toNat)
                (m.vm.mem pt' (ptIndex addr.toNat)) :=
              ⟨pt', hT, Vm.ptIndex_lt _, rfl, hc.1.1⟩
            exact h.setVm (h.vm.setWord (h.vm.mem_frames (h.vm.refs_of_maps hpd hm))
              (h.vm.data_of_maps hpd hm) _ word)
      · exact h

end Inv

end Machine

end Makar
