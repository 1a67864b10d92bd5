import Makar.MachineRun
import Makar.PmmWellFormed

/-!
# Running out of frames

Three parts of the kernel take several frames for one request, and the frames may
run out between any two of them: `vmm_clone_pd_cow` takes a directory and a table
for each table of the parent, the handler of page faults takes a page and perhaps
a table to put it in, and `surface_create` takes as many pages as its picture
needs. What is asked of them is the same: what was taken for a request that fails
is given back, to the last reference.

The invariants of the address spaces do not say this. They bound the counts from
below, because a count that is too high does no harm to anybody's memory; here a
count that is too high is the fault looked for. `Took` is the exact account: the
counts of a state are those of an earlier one and the references of a multiset.
A request that fails has to end with nothing on the account, and then the counter
of free frames is what it was as well.
-/

namespace Makar

open List Multiset Option Boot

namespace Vm

variable {M : Set ℕ} {s t u : Vm} {N R : Multiset ℕ} {pd pt ppt parent c f g i j k : ℕ}

/-! ## The account -/

/-- **The counts of `t` are those of `s` and the references of `N`.** -/
structure Took (M : Set ℕ) (s : Vm) (N : Multiset ℕ) (t : Vm) : Prop where
  /-- The allocator was in order. -/
  base : s.pmm.Inv M none
  /-- The allocator is in order. -/
  pmm : t.pmm.Inv M none
  /-- Every reference is accounted for. -/
  refs : ∀ g, t.refs g = s.refs g + N.count g
  /-- The blocks that were allocated are as large as they were. -/
  order : ∀ g, s.refs g ≠ 0 → (t.pmm.memMap g).order = (s.pmm.memMap g).order
  /-- The managed range is what it was. -/
  maxFrames : t.pmm.maxFrames = s.pmm.maxFrames

/-- Every count and the counter of free frames are what they were. -/
def Restored (s t : Vm) : Prop :=
  (∀ f, t.refCount f = s.refCount f) ∧ t.pmm.freeFrames = s.pmm.freeFrames

namespace Took

theorem refl (h : s.pmm.Inv M none) : Took M s 0 s :=
  ⟨h, h, fun _ => rfl, fun _ _ => rfl, rfl⟩

/-- The words of memory are not on the account. -/
theorem congr (h : Took M s N t) (hp : u.pmm = t.pmm) : Took M s N u := by
  refine ⟨h.base, hp ▸ h.pmm, fun g => ?_, fun g hg => hp ▸ h.order g hg, hp ▸ h.maxFrames⟩
  rw [← h.refs g, Vm.refs, Vm.refs, hp]

theorem le_refs (h : Took M s N t) (hg : 1 ≤ s.refs g) : 1 ≤ t.refs g := by
  rw [h.refs]
  omega

/-- **With nothing on the account, everything is what it was.** -/
theorem restored (h : Took M s 0 t) : Restored s t := by
  have hrefs : ∀ g, t.refs g = s.refs g := fun g => by
    rw [h.refs, count_zero, Nat.add_zero]
  refine ⟨fun f => ?_, ?_⟩
  · rw [refCount_of_pmm h.pmm, refCount_of_pmm h.base, hrefs]
  · exact Pmm.KeepsAllocs.freeFrames ⟨hrefs, h.order, h.maxFrames⟩ h.base h.pmm

/-- A frame in the pool was in the pool. -/
theorem inPool (h : Took M s N t) (hf : t.pmm.InPool f) : s.pmm.InPool f := by
  obtain ⟨hM, hno⟩ := h.pmm.inPool_iff.1 hf
  refine h.base.inPool_iff.2 ⟨hM, fun g o hg hcov => hno g o ⟨?_, ?_⟩ hcov⟩
  · have := h.le_refs (Nat.pos_of_ne_zero hg.1)
    exact Nat.ne_of_gt this
  · rw [h.order g hg.1]
    exact hg.2

/-- **`pmm_alloc_frame`**: there was no frame, and nothing has changed; or a frame
that was in the pool is on the account. -/
theorem allocFrame (h : Took M s N t) :
    (t.allocFrame = (none, t) ∧ t.pmm.freeFrames = 0)
      ∨ ∃ f u, t.allocFrame = (some f, u) ∧ Took M s (f ::ₘ N) u ∧ t.pmm.InPool f
        ∧ t.refs f = 0 ∧ u.mem = t.mem ∧ u.kpd = t.kpd
        ∧ u.pmm.freeFrames + 1 = t.pmm.freeFrames
        ∧ ∀ g, u.pmm.InPool g ↔ t.pmm.InPool g ∧ g ≠ f := by
  rcases Inv.alloc_of_pmm h.pmm with ⟨heq, hno⟩ | ⟨f, u, heq, ha, hu, hp⟩
  · refine .inl ⟨heq, ?_⟩
    rw [h.pmm.freeFrames_eq]
    simp [hno]
  · refine .inr ⟨f, u, heq, ⟨h.base, hu, fun g => ?_, fun g hg => ?_, ?_⟩, ha.inPool, ha.free,
      ha.mem, ha.kpd, h.pmm.freeFrames_alloc hu hp, fun g => h.pmm.inPool_alloc hu hp⟩
    · rw [ha.refs_eq, h.refs, Multiset.count_cons, Nat.add_assoc]
    · have hne : t.refs g ≠ 0 := Nat.ne_of_gt (h.le_refs (Nat.pos_of_ne_zero hg))
      have hgf : g ≠ f := fun hgf => hne (hgf ▸ ha.free)
      rw [hp.order g (.inr hne), if_neg hgf, h.order g hg]
    · exact hp.maxFrames.trans h.maxFrames

/-- An operation that leaves the sizes of the blocks that stay allocated. -/
theorem recount (h : Took M s N t) (hu : u.pmm.Inv M none)
    (hrefs : ∀ g, u.refs g = s.refs g + R.count g)
    (horder : ∀ g, u.refs g ≠ 0 → (u.pmm.memMap g).order = (t.pmm.memMap g).order)
    (hmax : u.pmm.maxFrames = t.pmm.maxFrames) : Took M s R u := by
  refine ⟨h.base, hu, hrefs, fun g hg => (horder g ?_).trans (h.order g hg), hmax.trans h.maxFrames⟩
  rw [hrefs]
  omega

/-- **`pmm_free_frame`** takes a reference off the account. -/
theorem freeFrame (h : Took M s (f ::ₘ N) t) : Took M s N (t.freeFrame f) := by
  obtain ⟨hinv, hrec⟩ := Pmm.pmmFreePages_spec h.pmm (f * pmmFrameSize) 0
  refine h.recount hinv (fun g => ?_) hrec.order hrec.maxFrames
  have hg := h.refs g
  rw [refs_freeFrame_of_pmm h.pmm]
  split_ifs with hgf
  · rw [hgf, Multiset.count_cons_self] at hg
    rw [hg, hgf]
    omega
  · rw [Multiset.count_cons_of_ne hgf] at hg
    exact hg

/-- **`pmm_inc_ref`** puts a reference on the account, below the limit of the count. -/
theorem incRef (h : Took M s N t) (hf : 1 ≤ t.refs f) (hlt : t.refs f < 0xFF) :
    Took M s (f ::ₘ N) (t.incRef f) := by
  obtain ⟨hinv, hrec⟩ := Pmm.pmmIncRef_spec h.pmm (f * pmmFrameSize)
  refine h.recount hinv (fun g => ?_) hrec.order hrec.maxFrames
  have hg := h.refs g
  rw [refs_incRef_of_pmm h.pmm hf hlt]
  split_ifs with hgf
  · rw [hgf] at hg ⊢
    rw [hg, Multiset.count_cons_self]
    omega
  · rw [Multiset.count_cons_of_ne hgf]
    exact hg

/-- A frame that is on the account is managed. -/
theorem mem_managed (h : Took M s (f ::ₘ N) t) : f ∈ M := by
  by_contra hn
  have hzero := (h.pmm.clear_of_not_mem hn).2
  have hcount := h.refs f
  rw [Multiset.count_cons_self, Vm.refs, hzero] at hcount
  omega

end Took

/-! ## `vmm_clone_pd_cow` -/

/-- The frames of the pages that the inner loop of `vmm_clone_pd_cow` shares. -/
noncomputable def sharedPages (s : Vm) (parent i : ℕ) : Multiset ℕ :=
  if s.Walkable parent i then tally (s.pageRef ∅ (s.mem parent i).frame) tableSize else 0

/-- **A page directory that can be cloned**, as the kernel builds them: it and its
tables are allocated, and every page is a user page of an allocated frame. -/
structure Parent (M : Set ℕ) (s : Vm) (parent : ℕ) : Prop where
  /-- The allocator is in order. -/
  pmm : s.pmm.Inv M none
  /-- The managed frames lie in the identity map. -/
  managed : ∀ f ∈ M, f ≠ 0 ∧ f < idmapEnd
  /-- The kernel's page tables are not in the pool. -/
  kernel : ∀ i, i < tableSize → s.Walkable parent i → ¬ s.pmm.InPool (s.kpd i).frame
  /-- The directory is allocated. -/
  dir : 1 ≤ s.refs parent
  /-- Its tables are allocated, and none is the directory. -/
  table : ∀ i, i < tableSize → s.Walkable parent i →
    1 ≤ s.refs (s.mem parent i).frame ∧ (s.mem parent i).frame ≠ parent
  /-- Its pages are user pages of allocated frames. -/
  page : ∀ i, i < tableSize → s.Walkable parent i → ∀ j, j < tableSize →
    (s.mem (s.mem parent i).frame j).present = true →
      (s.mem (s.mem parent i).frame j).user = true
        ∧ 1 ≤ s.refs (s.mem (s.mem parent i).frame j).frame

/-- The pages to be shared are of allocated frames. -/
theorem Parent.refs_of_shared (hP : Parent M s parent) (is : List ℕ)
    (his : ∀ i ∈ is, i < tableSize) : ∀ f ∈ (is.map (s.sharedPages parent)).sum, 1 ≤ s.refs f := by
  intro f hf
  obtain ⟨i, hi, hfi⟩ := exists_mem_of_mem_sum hf
  unfold sharedPages at hfi
  split_ifs at hfi with hw
  · obtain ⟨j, hj, hr⟩ := mem_filterMap.1 (mem_coe.1 hfi)
    obtain ⟨hp, rfl, -⟩ := pageRef_eq_some.1 hr
    exact (hP.page i (his i hi) hw j (List.mem_range.1 hj) hp).2
  · exact absurd hfi (notMem_zero f)

/-- **The inner loop** takes one reference for each page. -/
theorem Took.foldl_cloneEntry (hne : pt ≠ ppt) (js : List ℕ) (h : Took M s N t)
    (hpages : ∀ j ∈ js, (t.mem ppt j).present = true →
      (t.mem ppt j).user = true ∧ 1 ≤ t.refs (t.mem ppt j).frame)
    (hroom : t.Room (((js.filterMap (t.pageRef ∅ ppt) : List ℕ) : Multiset ℕ) + R)) :
    Took M s (((js.filterMap (t.pageRef ∅ ppt) : List ℕ) : Multiset ℕ) + N)
        (js.foldl (cloneEntry ppt pt) t)
      ∧ (js.foldl (cloneEntry ppt pt) t).Room R := by
  induction js generalizing t N with
  | nil =>
    rw [filterMap_nil, coe_nil, zero_add] at hroom ⊢
    exact ⟨h, hroom⟩
  | cons j js ih =>
    rw [List.foldl_cons]
    have hword := fun k => cloneEntry_mem_parent (s := t) (j := j) hne k
    have hpage := pageRef_cloneEntry (s := t) (j := j) (S := ∅) hne
    have huse : ∀ k ∈ js, ((cloneEntry ppt pt t j).mem ppt k).present = true →
        (∀ g, t.refs g ≤ (cloneEntry ppt pt t j).refs g) →
        ((cloneEntry ppt pt t j).mem ppt k).user = true
          ∧ 1 ≤ (cloneEntry ppt pt t j).refs ((cloneEntry ppt pt t j).mem ppt k).frame := by
      intro k hk hp hmono
      have hold := hpages k (mem_cons_of_mem j hk)
      rcases hword k with heq | heq <;> rw [heq] at hp ⊢ <;>
        exact ⟨(hold hp).1, (hold hp).2.trans (hmono _)⟩
    by_cases hp : (t.mem ppt j).present = true
    · obtain ⟨huser, hpos⟩ := hpages j mem_cons_self hp
      have hsome : t.pageRef ∅ ppt j = some (t.mem ppt j).frame :=
        pageRef_eq_some.2 ⟨hp, rfl, Set.notMem_empty _⟩
      rw [filterMap_cons_some hsome, ← cons_coe, cons_add] at hroom ⊢
      have hlt := hroom.lt
      have hstep : (cloneEntry ppt pt t j).pmm = (t.incRef (t.mem ppt j).frame).pmm := by
        simp only [cloneEntry, hp, huser, if_true]
        rfl
      have hrefs : ∀ g, (cloneEntry ppt pt t j).refs g
          = (t.incRef (t.mem ppt j).frame).refs g := fun g => by rw [Vm.refs, Vm.refs, hstep]
      have hinc := refs_incRef_of_pmm h.pmm hpos hlt
      have hnew := (h.incRef hpos hlt).congr hstep
      have hroom' : (cloneEntry ppt pt t j).Room
          (((js.filterMap (t.pageRef ∅ ppt) : List ℕ) : Multiset ℕ) + R) :=
        hroom.inc (by rw [hrefs, hinc, if_pos rfl]) (fun g hg => by rw [hrefs, hinc, if_neg hg])
      have hmono : ∀ g, t.refs g ≤ (cloneEntry ppt pt t j).refs g := by
        intro g
        rw [hnew.refs, h.refs]
        exact Nat.add_le_add_left (count_le_count_cons _ _ _) _
      have hrest := ih hnew (fun k hk hk' => huse k hk hk' hmono) (by rw [hpage]; exact hroom')
      rw [hpage, add_cons] at hrest
      exact hrest
    · rw [filterMap_cons_none (pageRef_of_absent hp)] at hroom ⊢
      rw [cloneEntry_of_absent hp]
      exact ih h (fun k hk => hpages k (mem_cons_of_mem j hk)) hroom

/-- The child's table has the pages of the parent's when the inner loop is done. -/
theorem pageRef_cloneTable (hne : pt ≠ ppt)
    (huser : ∀ j, j < tableSize → (t.mem ppt j).present = true → (t.mem ppt j).user = true)
    (hj : j < tableSize) : (t.cloneTable ppt pt).pageRef ∅ pt j = t.pageRef ∅ ppt j := by
  have hstart : ∀ k, (t.setFrame pt (fun _ => Entry.zero)).mem ppt k = t.mem ppt k := fun k =>
    congrFun (setFrame_mem_of_ne (Ne.symm hne)) k
  by_cases hp : (t.mem ppt j).present = true
  · unfold pageRef
    rw [cloneTable_clone hne t hj hp (huser j hj hp)]
    rfl
  · -- the place is empty in the parent's table all along, and so it is in the child's
    have hempty : ∀ js : List ℕ, ((js.foldl (cloneEntry ppt pt)
        (t.setFrame pt (fun _ => Entry.zero))).mem pt j).present = false
        ∧ ((js.foldl (cloneEntry ppt pt)
          (t.setFrame pt (fun _ => Entry.zero))).mem ppt j).present = false := by
      intro js
      refine foldl_invariant (P := fun u : Vm =>
        (u.mem pt j).present = false ∧ (u.mem ppt j).present = false) (fun u k hu => ⟨?_, ?_⟩) js
        ⟨by rw [setFrame_mem_self]; rfl, by rw [hstart]; simpa using hp⟩
      · by_cases hjk : j = k
        · rw [cloneEntry_of_absent (by rw [← hjk, hu.2]; exact Bool.false_ne_true)]
          exact hu.1
        · rw [cloneEntry_mem_table hne hjk]
          exact hu.1
      · rcases cloneEntry_mem_parent (s := u) (j := k) hne j with heq | heq <;> rw [heq] <;>
          exact hu.2
    have hlast := (hempty (range tableSize)).1
    rw [cloneTable_eq]
    rw [pageRef_of_absent (Bool.eq_false_iff.1 hlast), pageRef_of_absent hp]

/-- **The clone in the making**, with the entries `done` of its directory copied and
`rest` still to come: what `vmm_free_pd` would give back is what is on the account. -/
structure Cloning (M : Set ℕ) (s : Vm) (parent c : ℕ) (done rest : List ℕ) (t : Vm) : Prop where
  took : Took M s ((done.map (t.entryRefs ∅ c)).sum + {c}) t
  kpd : t.kpd = s.kpd
  fresh : s.pmm.InPool c
  dir : t.mem parent = s.mem parent
  /-- The frames that were allocated still hold references to the same frames. -/
  use : ∀ g, 1 ≤ s.refs g → ∀ k, (t.mem g k).present = (s.mem g k).present
    ∧ (t.mem g k).user = (s.mem g k).user ∧ (t.mem g k).frame = (s.mem g k).frame
  own : ∀ i ∈ done, t.OwnTable c i → s.pmm.InPool (t.mem c i).frame ∧ (t.mem c i).frame ≠ c
  todo : ∀ i ∈ rest, t.mem c i = s.kernelEntries i

/-- An entry of the kernel's directory is no table of the address space. -/
theorem not_ownTable_of_kernel (hk : t.kpd = s.kpd) (h : t.mem pd i = s.kernelEntries i) :
    ¬ t.OwnTable pd i := by
  rintro ⟨hp, -, hne⟩
  rw [h, hk] at hne
  rw [h] at hp
  unfold kernelEntries at hp hne
  split_ifs at hp hne
  · exact hne rfl
  · cases hp

namespace Cloning

variable {done rest : List ℕ}

/-- What the account says is what `vmm_free_pd` gives back. -/
theorem account (h : Cloning M s parent c done rest t) :
    ((done ++ rest).map (t.entryRefs ∅ c)).sum = (done.map (t.entryRefs ∅ c)).sum := by
  rw [map_append, sum_append]
  have hzero : (rest.map (t.entryRefs ∅ c)).sum = 0 := by
    refine sum_eq_zero fun x hx => ?_
    obtain ⟨i, hi, rfl⟩ := mem_map.1 hx
    exact if_neg (not_ownTable_of_kernel h.kpd (h.todo i hi))
  rw [hzero, add_zero]

/-- **Freeing the clone, whole or in part, gives everything back.** -/
theorem restored (h : Cloning M s parent c done rest t) (hM : ∀ f ∈ M, f ≠ 0 ∧ f < idmapEnd)
    (hall : done ++ rest = List.range tableSize) : Restored s (t.vmmFreePd c) := by
  have hrel : ∀ (u : Vm) f N, Took M s (f ::ₘ N + {c}) u → Took M s (N + {c}) (u.releaseFrame f) := by
    intro u f N hu
    rw [cons_add] at hu
    unfold releaseFrame
    rw [if_pos (hM f hu.mem_managed)]
    exact hu.freeFrame
  have hfree : ∀ (u : Vm) f N, Took M s (f ::ₘ N + {c}) u → Took M s (N + {c}) (u.freeFrame f) := by
    intro u f N hu
    rw [cons_add] at hu
    exact hu.freeFrame
  have htook := h.took
  rw [← h.account, hall] at htook
  have htables := foldl_freeTable_rule (J := fun u N => Took M s (N + {c}) u) (N := 0) hrel hfree
    (range tableSize) (by rw [add_zero]; exact htook) (fun i hi hown => ?_)
    (fun _ _ _ _ _ _ => Set.notMem_empty _)
  · rw [zero_add] at htables
    unfold vmmFreePd
    exact (htables.freeFrame (N := 0)).restored
  · refine ⟨hown, ?_⟩
    rw [← hall] at hi
    rcases mem_append.1 hi with hi | hi
    · exact hM _ (h.took.base.inPool_iff.1 (h.own i hi hown).1).1
    · exact absurd hown (not_ownTable_of_kernel h.kpd (h.todo i hi))

theorem ne_of_refs (hf : 1 ≤ s.refs f) (hg : s.refs g = 0) : f ≠ g := by
  rintro rfl
  omega

/-- **One table goes into the clone.** -/
theorem table (h : Cloning M s parent c done (i :: rest) t) (hP : Parent M s parent)
    (hi : i < tableSize) (hw : s.Walkable parent i) (hnd : (done ++ i :: rest).Nodup)
    (hroom : t.Room (s.sharedPages parent i + R)) (hR : ∀ f ∈ R, 1 ≤ s.refs f)
    (hu : Took M s (pt ::ₘ (done.map (t.entryRefs ∅ c)).sum + {c}) u) (hpool : t.pmm.InPool pt)
    (hmem : u.mem = t.mem) (hkpd : u.kpd = t.kpd) :
    Cloning M s parent c (done ++ [i]) rest
        ((u.cloneTable (t.mem parent i).frame pt).setWord c i { t.mem parent i with frame := pt })
      ∧ ((u.cloneTable (t.mem parent i).frame pt).setWord c i
        { t.mem parent i with frame := pt }).Room R := by
  obtain ⟨htab, hdir⟩ := hP.table i hi hw
  rw [h.dir]
  generalize hppt : (s.mem parent i).frame = ppt at htab hdir ⊢
  have hspt := h.took.inPool hpool
  have hszero : s.refs pt = 0 := Pmm.refcount_of_inPool hP.pmm hspt
  have htzero : t.refs pt = 0 := Pmm.refcount_of_inPool h.took.pmm hpool
  have hczero : s.refs c = 0 := Pmm.refcount_of_inPool hP.pmm h.fresh
  have hcpos : 1 ≤ t.refs c := by
    rw [h.took.refs, count_add, Multiset.count_singleton_self]
    omega
  have hne : pt ≠ ppt := (ne_of_refs htab hszero).symm
  have hcpt : c ≠ pt := ne_of_refs hcpos htzero
  have hcppt : c ≠ ppt := (ne_of_refs htab hczero).symm
  have hcpar : parent ≠ c := ne_of_refs hP.dir hczero
  have hptpar : parent ≠ pt := ne_of_refs hP.dir hszero
  have huse := h.use ppt htab
  have hpage : u.pageRef ∅ ppt = s.pageRef ∅ ppt := by
    funext k
    obtain ⟨h₁, -, h₃⟩ := huse k
    unfold pageRef
    rw [hmem, h₁, h₃]
  have hshared : s.sharedPages parent i = tally (s.pageRef ∅ ppt) tableSize := by
    unfold sharedPages
    rw [if_pos hw, hppt]
  have hpages : ∀ j, j < tableSize → (u.mem ppt j).present = true →
      (u.mem ppt j).user = true ∧ 1 ≤ s.refs (u.mem ppt j).frame := by
    intro j hj hp
    obtain ⟨h₁, h₂, h₃⟩ := huse j
    have hpg := hP.page i hi hw j hj
    rw [hppt] at hpg
    rw [hmem] at hp ⊢
    rw [h₂, h₃]
    exact hpg (h₁ ▸ hp)
  -- The counts of the pages to come are those of before the table was allocated.
  have hcount : ∀ f, 1 ≤ s.refs f → u.refs f = t.refs f := by
    intro f hf
    rw [hu.refs, h.took.refs, cons_add, Multiset.count_cons_of_ne (ne_of_refs hf hszero)]
  have hroom' : (u.setFrame pt (fun _ => Entry.zero)).Room
      (((List.range tableSize).filterMap ((u.setFrame pt (fun _ => Entry.zero)).pageRef ∅ ppt)
        : List ℕ) + R) := by
    rw [pageRef_congr (setFrame_mem_of_ne (Ne.symm hne)), hpage]
    rw [hshared] at hroom
    refine hroom.congr fun f hf => hcount f ?_
    rcases mem_add.1 hf with hf | hf
    · obtain ⟨j, hj, hr⟩ := mem_filterMap.1 (mem_coe.1 hf)
      rw [← hpage] at hr
      obtain ⟨hp, rfl, -⟩ := pageRef_eq_some.1 hr
      exact (hpages j (List.mem_range.1 hj) hp).2
    · exact hR f hf
  have hstart : (u.setFrame pt (fun _ => Entry.zero)).mem ppt = u.mem ppt :=
    setFrame_mem_of_ne (Ne.symm hne)
  obtain ⟨hloop, hleft⟩ := Took.foldl_cloneEntry hne (range tableSize)
    (hu.congr (u := u.setFrame pt (fun _ => Entry.zero)) rfl) (fun j hj hp => by
      rw [hstart] at hp ⊢
      obtain ⟨h₁, h₂⟩ := hpages j (List.mem_range.1 hj) hp
      exact ⟨h₁, hu.le_refs h₂⟩) hroom'
  rw [pageRef_congr hstart, hpage, ← cloneTable_eq] at hloop
  rw [← cloneTable_eq] at hleft
  have hcopied : tally ((u.cloneTable ppt pt).pageRef ∅ pt) tableSize
      = tally (s.pageRef ∅ ppt) tableSize := by
    unfold tally
    rw [← hpage]
    refine congrArg _ (filterMap_congr fun j hj => ?_)
    exact pageRef_cloneTable hne (fun k hk hp => (hpages k hk hp).1) (List.mem_range.1 hj)
  obtain ⟨hother, hk⟩ := cloneTable_mem ppt pt u
  rw [hmem] at hother
  rw [hkpd, h.kpd] at hk
  have hparent := cloneTable_parent hne u
  rw [hmem] at hparent
  obtain ⟨v, hv⟩ : ∃ v, v = u.cloneTable ppt pt := ⟨_, rfl⟩
  rw [← hv] at hloop hleft hcopied hother hk hparent ⊢
  obtain ⟨w, hset⟩ : ∃ w, w = v.setWord c i { s.mem parent i with frame := pt } := ⟨_, rfl⟩
  have hwi : w.mem c i = { s.mem parent i with frame := pt } := by rw [hset, setWord_mem_self]
  have hwc : ∀ k, k ≠ i → w.mem c k = t.mem c k := by
    intro k hki
    rw [hset, setWord_mem, if_neg (fun hc => hki hc.2), hother c hcppt hcpt]
  have hwo : ∀ g, g ≠ c → w.mem g = v.mem g := fun g hg => hset ▸ setWord_mem_of_ne hg
  have hknew : w.kpd = s.kpd := hset ▸ hk
  have hpmm : w.pmm = v.pmm := hset ▸ setWord_pmm
  rw [← hset]
  clear hset
  have hne_of : ∀ k ∈ done, k ≠ i := by
    rintro k hk rfl
    exact (nodup_append.1 hnd).2.2 k hk k mem_cons_self rfl
  -- The tables copied before are none of the frames written to.
  have hold : ∀ k ∈ done, t.OwnTable c k →
      w.mem (t.mem c k).frame = t.mem (t.mem c k).frame := by
    intro k hk hown
    obtain ⟨hkpool, hkc⟩ := h.own k hk hown
    have hkzero : s.refs (t.mem c k).frame = 0 := Pmm.refcount_of_inPool hP.pmm hkpool
    have hkpos : 1 ≤ t.refs (t.mem c k).frame := by
      rw [h.took.refs, hkzero, Nat.zero_add, count_add]
      have hmemk : (t.mem c k).frame ∈ (done.map (t.entryRefs ∅ c)).sum := by
        obtain ⟨pre, post, hsplit⟩ := append_of_mem hk
        rw [hsplit, List.map_append, List.sum_append, List.map_cons, List.sum_cons, entryRefs,
          if_pos hown, tableRefs]
        exact mem_add.2 (.inr (mem_add.2 (.inl (mem_cons_self _ _))))
      have := one_le_count_iff_mem.2 hmemk
      omega
    rw [hwo _ hkc, hother _ (ne_of_refs htab hkzero).symm (ne_of_refs hkpos htzero)]
  have hrefs : ∀ k ∈ done, w.entryRefs ∅ c k = t.entryRefs ∅ c k := fun k hk =>
    entryRefs_congr (hknew.trans h.kpd.symm) (hwc k (hne_of k hk)) (hold k hk)
  have hown : w.OwnTable c i := by
    unfold OwnTable
    rw [hwi, hknew]
    exact ⟨hw.1.1, hw.1.2.1, fun heq => hP.kernel i hi hw (heq ▸ hspt)⟩
  have hnew : w.entryRefs ∅ c i = pt ::ₘ tally (s.pageRef ∅ ppt) tableSize := by
    unfold entryRefs
    rw [if_pos hown, hwi]
    unfold tableRefs
    rw [pageRef_congr (hwo pt (Ne.symm hcpt)), hcopied]
  refine ⟨⟨?_, hknew, h.fresh, ?_, fun g hg k => ?_, fun k hk hko => ?_, fun k hk => ?_⟩,
    hleft.congr fun f _ => by rw [Vm.refs, hpmm, Vm.refs]⟩
  · rw [List.map_append, List.sum_append, List.map_congr_left hrefs, List.map_singleton,
      List.sum_singleton, hnew]
    refine Took.congr ?_ hpmm
    have hsum : (done.map (t.entryRefs ∅ c)).sum + (pt ::ₘ tally (s.pageRef ∅ ppt) tableSize) + {c}
        = tally (s.pageRef ∅ ppt) tableSize + (pt ::ₘ (done.map (t.entryRefs ∅ c)).sum + {c}) := by
      simp only [← singleton_add]
      abel
    rw [hsum]
    exact hloop
  · rw [hwo parent hcpar, hother parent (Ne.symm hdir) hptpar, h.dir]
  · rw [hwo g (ne_of_refs hg hczero)]
    by_cases hgp : g = ppt
    · subst hgp
      rcases hparent k with heq | heq <;> rw [heq] <;> exact huse k
    · rw [hother g hgp (ne_of_refs hg hszero)]
      exact h.use g hg k
  · rcases mem_append.1 hk with hkd | hki
    · have hko' : t.OwnTable c k := by
        unfold OwnTable at hko ⊢
        rw [hwc k (hne_of k hkd), hknew] at hko
        rw [h.kpd]
        exact hko
      rw [hwc k (hne_of k hkd)]
      exact h.own k hkd hko'
    · rw [List.mem_singleton.1 hki, hwi]
      exact ⟨hspt, Ne.symm hcpt⟩
  · have hki : k ≠ i := by
      rintro rfl
      exact (nodup_cons.1 (nodup_append.1 hnd).2.1).1 hk
    rw [hwc k hki]
    exact h.todo k (mem_cons_of_mem i hk)

/-- **The outer loop**, wherever the frames run out. -/
theorem tables (hP : Parent M s parent) (rest : List ℕ) {done : List ℕ}
    (h : Cloning M s parent c done rest t) (hall : done ++ rest = List.range tableSize)
    (hroom : t.Room (rest.map (s.sharedPages parent)).sum) :
    ∃ done' rest', done' ++ rest' = List.range tableSize
      ∧ Cloning M s parent c done' rest' (cloneTables parent c rest t).2 := by
  induction rest generalizing done t with
  | nil => exact ⟨done, [], hall, h⟩
  | cons i rest ih =>
    have hi : i < tableSize := by
      rw [← List.mem_range, ← hall]
      simp
    rw [List.map_cons, List.sum_cons] at hroom
    have hwalk : t.Walkable parent i ↔ s.Walkable parent i := by
      unfold Walkable OwnTable
      rw [h.dir, h.kpd]
    have hall' : done ++ [i] ++ rest = List.range tableSize := by
      rw [List.append_assoc]
      exact hall
    simp only [cloneTables]
    split_ifs with hw
    · rcases h.took.allocFrame with ⟨heq, -⟩ | ⟨pt, u, heq, hu, hpool, -, hmem, hkpd, -, -⟩
      · rw [heq]
        exact ⟨done, i :: rest, hall, h⟩
      · rw [heq]
        have hpos := hP.refs_of_shared rest fun k hk => by
          rw [← List.mem_range, ← hall]
          simp [hk]
        rw [← cons_add] at hu
        obtain ⟨hnext, hleft⟩ := h.table hP hi (hwalk.1 hw) (hall ▸ nodup_range) hroom hpos hu
          hpool hmem hkpd
        exact ih hnext hall' hleft
    · refine ih ⟨?_, h.kpd, h.fresh, h.dir, h.use, fun k hk hko => ?_,
        fun k hk => h.todo k (mem_cons_of_mem i hk)⟩ hall' (hroom.mono (le_add_left _ _))
      · have hzero : t.entryRefs ∅ c i = 0 :=
          if_neg (not_ownTable_of_kernel h.kpd (h.todo i mem_cons_self))
        rw [List.map_append, List.sum_append, List.map_singleton, List.sum_singleton, hzero, add_zero]
        exact h.took
      · rcases mem_append.1 hk with hk | hk
        · exact h.own k hk hko
        · rw [List.mem_singleton.1 hk] at hko
          exact absurd hko (not_ownTable_of_kernel h.kpd (h.todo i mem_cons_self))

end Cloning

/-- **`vmm_clone_pd_cow` takes nothing it does not give back**, wherever the frames
run out: if it fails, all counts and the number of free frames are what they were;
if it succeeds, `vmm_free_pd` of the clone makes them so. No count may be at its
limit when a page is shared. -/
theorem vmmClonePdCow_restores (M : Set ℕ) (s : Vm) (parent : ℕ) (hP : Parent M s parent)
    (hroom : s.Room ((List.range tableSize).map (s.sharedPages parent)).sum) :
    (∀ t, s.vmmClonePdCow parent = (none, t) → Restored s t)
      ∧ ∀ c t, s.vmmClonePdCow parent = (some c, t) → Restored s (t.vmmFreePd c) := by
  unfold vmmClonePdCow vmmCreatePd
  rcases (Took.refl hP.pmm).allocFrame with ⟨heq, -⟩ | ⟨c, u, heq, hu, hpool, hzero, hmem, hkpd, -, -⟩
  · rw [heq]
    exact ⟨fun t ht => by cases ht; exact (Took.refl hP.pmm).restored, fun c t ht => by cases ht⟩
  rw [heq]
  dsimp only
  have hentries : u.kernelEntries = s.kernelEntries := by
    unfold kernelEntries
    rw [hkpd]
  have hne : ∀ g, 1 ≤ s.refs g → g ≠ c := by
    rintro g hg rfl
    omega
  have hkeep : ∀ g, 1 ≤ s.refs g → (u.setFrame c u.kernelEntries).mem g = s.mem g := fun g hg => by
    rw [setFrame_mem_of_ne (hne g hg), hmem]
  have hstart : Cloning M s parent c [] (range tableSize) (u.setFrame c u.kernelEntries) := by
    refine ⟨?_, hkpd, hpool, hkeep parent hP.dir, fun g hg k => ?_, fun i hi => ?_,
      fun i _ => ?_⟩
    · exact (hu.congr (u := u.setFrame c u.kernelEntries) rfl)
    · rw [hkeep g hg]
      exact ⟨rfl, rfl, rfl⟩
    · cases hi
    · rw [setFrame_mem_self, hentries]
  have hroom' : (u.setFrame c u.kernelEntries).Room
      ((List.range tableSize).map (s.sharedPages parent)).sum := by
    have hpos := hP.refs_of_shared (List.range tableSize) fun k hk => List.mem_range.1 hk
    revert hroom hpos
    generalize ((List.range tableSize).map (s.sharedPages parent)).sum = N
    refine fun hroom hpos => hroom.congr fun f hf => ?_
    show u.refs f = _
    rw [hu.refs, Multiset.count_cons_of_ne (hne f (hpos f hf)), Multiset.count_zero, Nat.add_zero]
  obtain ⟨done, rest, hall, hend⟩ := hstart.tables hP (List.range tableSize) (List.nil_append _) hroom'
  have hrest := hend.restored hP.managed hall
  clear hend hall hroom' hstart
  generalize cloneTables parent c (range tableSize) (u.setFrame c u.kernelEntries) = r at hrest ⊢
  obtain ⟨b, v⟩ := r
  cases b with
  | true => exact ⟨fun t ht => (by cases ht), fun c' t ht => (by cases ht; exact hrest)⟩
  | false =>
    dsimp only
    exact ⟨fun t ht => (Prod.mk.inj ht).2 ▸ hrest, fun c' t ht => by cases (Prod.mk.inj ht).1⟩

/-- **The address spaces of the invariant can be cloned**, if their pages are user
pages. -/
theorem parent_of_inv {K : Kernel} {W : Prop} {S : Set ℕ} {P : ℕ → ℕ → ℕ → Entry → Prop} {pds : Set ℕ}
    {L : Multiset ℕ} (h : s.Inv K W S P pds L) (hpd : pd ∈ pds)
    (huser : ∀ i j e, P pd i j e → e.user = true) : Parent K.frames s pd := by
  have htable : ∀ i, i < tableSize → s.Walkable pd i → s.Table pd i (s.mem pd i).frame :=
    fun i hi hw => ⟨hi, hw.1, rfl⟩
  refine ⟨h.pmm, fun f hf => ⟨fun hz => K.zero_not_mem (hz ▸ hf), K.lt_idmapEnd f hf⟩,
    fun i hi hw => ?_, (h.dir_one pd hpd).ge, fun i hi hw => ⟨?_, fun heq => ?_⟩,
    fun i hi hw j hj hp => ?_⟩
  · rcases h.shape pd hpd i hi with heq | ⟨hz, -⟩
    · exact absurd (by rw [heq, h.kpd]) hw.1.2.2
    · rw [h.kpd, hz]
      exact fun hc => K.zero_not_mem (h.pmm.inPool_iff.1 hc).1
  · exact (h.table_one pd hpd i _ (htable i hi hw)).ge
  · exact h.table_not_dir hpd (htable i hi hw) (by rw [heq]; exact hpd)
  · have hm : s.Maps pd i j (s.mem (s.mem pd i).frame j) := ⟨_, htable i hi hw, hj, rfl, hp⟩
    exact ⟨huser i j _ (h.maps pd hpd i j _ hm), h.refs_of_maps hpd hm⟩

/-- Room for all references of the address space is room for the pages. -/
theorem Room.shared (h : s.Room (s.spaceRefs ∅ parent)) :
    s.Room ((List.range tableSize).map (s.sharedPages parent)).sum := by
  unfold spaceRefs at h
  generalize List.range tableSize = is at h ⊢
  refine h.mono ((sum_le_sum fun i _ => ?_).trans (le_add_right _ {parent}))
  unfold sharedPages
  split_ifs with hw
  · rw [entryRefs, if_pos hw.1, tableRefs]
    exact le_cons_self _ _
  · exact zero_le

/-- The address space of the program on the small boot. -/
theorem vmmClonePdCow_restores_small :
    ∃ pd, ((Boot.small.machine.run startRun).tasks 1).pageDir = some pd
      ∧ (∀ t, (Boot.small.machine.run startRun).vm.vmmClonePdCow pd = (none, t) →
        Restored (Boot.small.machine.run startRun).vm t)
      ∧ ∀ c t, (Boot.small.machine.run startRun).vm.vmmClonePdCow pd = (some c, t) →
        Restored (Boot.small.machine.run startRun).vm (t.vmmFreePd c) := by
  have hinv := small.inv_run (W := False) meets_startRun
  have hsurf := surf_startRun
  have hrefs := refs_startRun
  have hdir : ((small.machine.run startRun).tasks 1).pageDir ≠ none := by decide +kernel
  generalize small.machine.run startRun = m at hinv hsurf hrefs hdir ⊢
  obtain ⟨pd, hd⟩ := ne_none_iff_exists'.1 hdir
  have hvm := hinv.vm
  have hempty : m.surfFrames = ∅ := by
    refine Set.eq_empty_of_forall_notMem ?_
    rintro f ⟨k, hk⟩
    rw [hsurf] at hk
    cases hk
  have hroom := hvm.room_of_refs (Machine.mem_pds hd) hrefs
  rw [hempty] at hroom
  exact ⟨pd, hd, vmmClonePdCow_restores _ m.vm pd
    (parent_of_inv hvm (Machine.mem_pds hd) fun i j e he => he.1.1)
    hroom.shared⟩

end Vm

/-! ## The handler of page faults

A page that has been reserved and never touched is mapped when it is. The handler
takes a frame for the page, and `vmm_map_page` takes another if the address space
has no table there yet. When this second one cannot be had `vmm_map_page` returns
without a word, and the handler reports that the page is there. -/

namespace Machine

variable {M : Set ℕ} {vm : Vm} {x : Task} {pd addr : ℕ}

/-- **What is asked of the handler.** It succeeds with a page of zeros at the
address, and of the frames of the pool only the page and its table are gone; or it
fails, there being no frame, and nothing has changed. -/
def AnonOk (vm : Vm) (pd addr : ℕ) : Option Vm → Prop
  | some v => ∃ pt f, v.tableOf pd addr = some pt ∧ v.mem pt (ptIndex addr) = Entry.leaf f true
    ∧ v.mem f = zeroWords ∧ ∀ g, vm.pmm.InPool g → v.pmm.InPool g ∨ g = f ∨ g = pt
  | none => vm.allocFrame = (none, vm)

/-- The directory, and the table of the address if there is one, are not in the pool. -/
structure Walked (M : Set ℕ) (vm : Vm) (pd addr : ℕ) : Prop where
  /-- The allocator is in order. -/
  pmm : vm.pmm.Inv M none
  /-- The directory is not in the pool. -/
  dir : ¬ vm.pmm.InPool pd
  /-- The table is not in the pool, nor is it the directory. -/
  table : ∀ pt, vm.tableOf pd addr = some pt → ¬ vm.pmm.InPool pt ∧ pt ≠ pd

/-- The address spaces of the invariant are so. -/
theorem walked_of_inv {K : Kernel} {W : Prop} {S : Set ℕ} {P : ℕ → ℕ → ℕ → Entry → Prop}
    {pds : Set ℕ} {L : Multiset ℕ} (h : vm.Inv K W S P pds L) (hpd : pd ∈ pds)
    (ha : addr < 2 ^ 32) : Walked K.frames vm pd addr := by
  have hin : ∀ f, vm.refs f = 1 → ¬ vm.pmm.InPool f := fun f hf hc => by
    have hz : vm.refs f = 0 := Pmm.refcount_of_inPool h.pmm hc
    omega
  refine ⟨h.pmm, hin pd (h.dir_one pd hpd), fun pt hpt => ?_⟩
  by_cases hK : K.Shared (pdIndex addr)
  · have hframe : pt ∉ K.frames := by
      rcases K.entry (pdIndex addr) with hz | ⟨-, hl | hf⟩
      · rw [Kernel.Shared, hz] at hK
        cases hK.1
      · rw [hK.2] at hl
        cases hl
      · rcases h.shape pd hpd (pdIndex addr) (Vm.pdIndex_lt ha) with heq | ⟨hz, -⟩
        · unfold Vm.tableOf at hpt
          rw [heq] at hpt
          simp only [hK.1, hK.2, Bool.false_eq_true, not_false_eq_true, and_self, if_true] at hpt
          exact some.inj hpt ▸ hf
        · rw [Kernel.Shared, hz] at hK
          cases hK.1
    refine ⟨fun hc => hframe (h.pmm.inPool_iff.1 hc).1, fun heq => hframe ?_⟩
    rw [heq]
    exact h.mem_frames (h.dir_one pd hpd).ge
  · rcases h.tableOf hpd ha hK with ⟨hn, -⟩ | ⟨pt', ht, hT⟩
    · rw [hn] at hpt
      cases hpt
    · obtain rfl := some.inj (ht.symm.trans hpt)
      refine ⟨hin _ (h.table_one pd hpd _ _ hT), fun heq => h.table_not_dir hpd hT (heq ▸ hpd)⟩

/-- **When the handler does what is asked of it**, at an address that is reserved and
not mapped: there is no free frame at all, or a table is there already, or there are
two free frames. -/
theorem anonFault_ok_iff (M : Set ℕ) (vm : Vm) (x : Task) (pd addr : ℕ) (h : Walked M vm pd addr)
    (hp : pagePresent pd addr vm = false) (hr : Reserved x addr) :
    AnonOk vm pd addr (tryHandleAnonFault x pd addr vm)
      ↔ vm.pmm.freeFrames = 0 ∨ (vm.mem pd (pdIndex addr)).large = false
        ∧ ((vm.mem pd (pdIndex addr)).present = true ∨ 2 ≤ vm.pmm.freeFrames) := by
  unfold tryHandleAnonFault
  rw [if_neg (by rw [hp]; exact Bool.false_ne_true), if_pos hr]
  rcases (Vm.Took.refl h.pmm).allocFrame with
    ⟨heq, hzero⟩ | ⟨f, u, heq, hu, hfpool, -, hmem, hkpd, hfree, hpool⟩
  · rw [heq]
    exact iff_of_true heq (.inl hzero)
  rw [heq]
  obtain ⟨hpdi, hpti⟩ := Inv.pageBase_index addr
  have hpdf : pd ≠ f := fun hc => h.dir (hc ▸ hfpool)
  have hdir : (u.setFrame f zeroWords).mem pd = vm.mem pd := by
    rw [Vm.setFrame_mem_of_ne hpdf, hmem]
  have hpos : vm.pmm.freeFrames ≠ 0 := by omega
  simp only [Vm.vmmMapPage, hpdi, hpti, hdir]
  by_cases hl : (vm.mem pd (pdIndex addr)).large = true
  · -- a large page of the kernel is left alone
    rw [if_pos hl]
    refine iff_of_false ?_ ?_
    · rintro ⟨pt, g, hpt, -⟩
      unfold Vm.tableOf at hpt
      rw [hdir] at hpt
      simp [hl] at hpt
    · rintro (hc | ⟨hc, -⟩)
      · exact hpos hc
      · rw [hl] at hc
        cases hc
  rw [if_neg hl]
  rw [Bool.not_eq_true] at hl
  unfold Vm.vmmTable
  rw [hdir]
  by_cases hpres : (vm.mem pd (pdIndex addr)).present = true
  · -- the table is there
    have htab : vm.tableOf pd addr = some (vm.mem pd (pdIndex addr)).frame := by
      simp [Vm.tableOf, hl, hpres]
    obtain ⟨hptpool, hptpd⟩ := h.table _ htab
    have hfpt : f ≠ (vm.mem pd (pdIndex addr)).frame := fun hc => hptpool (hc ▸ hfpool)
    simp only [hpres, if_true, hdir]
    refine iff_of_true ⟨_, f, ?_, Vm.setWord_mem_self _ _ _ _, ?_, fun g hg => ?_⟩
      (.inr ⟨hl, .inl trivial⟩)
    · unfold Vm.tableOf
      rw [Vm.setWord_mem_of_ne (Ne.symm hptpd), hdir]
      simp [hl, hpres]
    · rw [Vm.setWord_mem_of_ne hfpt, Vm.setFrame_mem_self]
    · by_cases hgf : g = f
      · exact .inr (.inl hgf)
      · exact .inl ((hpool g).2 ⟨hg, hgf⟩)
  · -- the table has to be allocated
    simp only [hpres, Bool.false_eq_true, if_false]
    rcases (hu.congr (u := u.setFrame f zeroWords) rfl).allocFrame with
      ⟨heq₂, hzero₂⟩ | ⟨pt, v, heq₂, hv, hptpool, -, hmem₂, hkpd₂, hfree₂, hpool₂⟩
    · have hone : u.pmm.freeFrames = 0 := hzero₂
      rw [heq₂]
      simp only [Bool.false_eq_true, if_false]
      refine iff_of_false ?_ (by simp only [hpos, false_or]; omega)
      rintro ⟨pt, g, hpt, -⟩
      unfold Vm.tableOf at hpt
      rw [hdir] at hpt
      simp [hpres] at hpt
    · rw [heq₂]
      have hptf : pt ≠ f := ((hpool pt).1 hptpool).2
      have hptpd : pd ≠ pt := fun hc => h.dir (hc ▸ ((hpool pt).1 hptpool).1)
      have hfree₂ : v.pmm.freeFrames + 1 = u.pmm.freeFrames := hfree₂
      simp only [if_true, Vm.setWord_mem_self, show (Entry.pointer pt).frame = pt from rfl]
      refine iff_of_true ⟨pt, f, ?_, Vm.setWord_mem_self _ _ _ _, ?_, fun g hg => ?_⟩
        (.inr ⟨hl, .inr (by omega)⟩)
      · unfold Vm.tableOf
        rw [Vm.setWord_mem_of_ne hptpd, Vm.setWord_mem_self]
        rfl
      · show Vm.mem (Vm.setWord _ _ _ _) f = _
        rw [Vm.setWord_mem_of_ne (Ne.symm hptf),
          Vm.setWord_mem_of_ne (Ne.symm hpdf), Vm.setFrame_mem_of_ne (Ne.symm hptf),
          hmem₂, Vm.setFrame_mem_self]
      · by_cases hgf : g = f
        · exact .inr (.inl hgf)
        · by_cases hgpt : g = pt
          · exact .inr (.inr hgpt)
          · exact .inl ((hpool₂ g).2 ⟨(hpool g).2 ⟨hg, hgf⟩, hgpt⟩)

/-- A task with a heap of two pages at `0x40002000`. -/
def heapTask : Task := { Task.unused with userBrkBase := 0x40002000, userBrk := 0x40004000 }

/-- The program on the small boot touches its heap, which lies beside its text. -/
theorem anonFault_ok_small :
    ((Boot.small.machine.run startRun).tasks 1).pageDir = some 1024
      ∧ AnonOk (Boot.small.machine.run startRun).vm 1024 0x40003000
        (tryHandleAnonFault heapTask 1024 0x40003000 (Boot.small.machine.run startRun).vm) := by
  have hinv := small.inv_run (W := False) meets_startRun
  have hdir : ((small.machine.run startRun).tasks 1).pageDir = some 1024
      ∧ pagePresent 1024 0x40003000 (small.machine.run startRun).vm = false
      ∧ ((small.machine.run startRun).vm.mem 1024 (pdIndex 0x40003000)).large = false
      ∧ ((small.machine.run startRun).vm.mem 1024 (pdIndex 0x40003000)).present = true := by
    decide +kernel
  generalize small.machine.run startRun = m at hinv hdir ⊢
  obtain ⟨hd, hp, hl, hpres⟩ := hdir
  exact ⟨hd, (anonFault_ok_iff _ m.vm heapTask 1024 0x40003000
    (walked_of_inv hinv.vm (mem_pds hd) (by decide)) hp (by decide)).2 (.inr ⟨hl, .inl hpres⟩)⟩

/-- Memory of two frames, with a directory in one of them. -/
def lastFrame : Option ℕ × Vm :=
  Vm.vmmCreatePd ⟨Pmm.pmmInit 0x200000 multiboot2BootloaderMagic [.mmap [⟨0x400000, 0x2000, 1⟩]],
    fun _ => zeroWords, fun _ => Entry.zero⟩

/-- **The last frame is lost**: the handler takes it for the page, finds none for the
table, and reports success with nothing mapped. -/
theorem anonFault_loses_frame :
    lastFrame.1 = some 1024 ∧ lastFrame.2.pmm.freeFrames = 1
      ∧ pagePresent 1024 0x40003000 lastFrame.2 = false ∧ Reserved heapTask 0x40003000
      ∧ (tryHandleAnonFault heapTask 1024 0x40003000 lastFrame.2).map
        (fun v => (v.tableOf 1024 0x40003000, v.pmm.freeFrames)) = some (none, 0) := by
  decide +kernel

/-! ## `surface_create`

The size of a surface in bytes is a product of three 32-bit words, and the number
of its pages comes from the low 32 bits of it. `surface_info` packs the width and
the height into sixteen bits each. -/

/-- What `surface_create` returns: the slot it has filled, if it has filled one. -/
def surfaceId (t : ℕ) (w h : ℤ) (m : Machine) : Option ℕ :=
  ((List.range surfaceMax).find? (fun k => !(m.surf k).inUse)).filter
    (fun k => ((m.surfaceCreate t w h).surf k).inUse)

/-- `surface_info`: the sides of the surface in a slot, or the word of all ones. -/
def surfaceInfo (id : ℤ) (m : Machine) : ℤ :=
  if 0 ≤ id ∧ id < surfaceMax ∧ (m.surf id.toNat).inUse then
    (m.surf id.toNat).w % 2 ^ 16 * 2 ^ 16 + (m.surf id.toNat).h % 2 ^ 16
  else 2 ^ 32 - 1

/-- **What is asked of `surface_create`**: a surface has room for its pixels of four
bytes each and `surface_info` tells its sides; and a failure leaves the allocator as
it was. -/
def CreateOk (t : ℕ) (w h : ℤ) (m : Machine) : Prop :=
  match m.surfaceId t w h with
  | some k => w * h * 4 ≤ ((m.surfaceCreate t w h).surf k).phys.length * pmmFrameSize
    ∧ (m.surfaceCreate t w h).surfaceInfo k / 2 ^ 16 = w
    ∧ (m.surfaceCreate t w h).surfaceInfo k % 2 ^ 16 = h
  | none => Vm.Restored m.vm (m.surfaceCreate t w h).vm

/-- **The loop of `surface_create`** comes to its end if there are frames enough, and
the frames it has collected are what it has taken. -/
theorem took_surfacePages (is : List ℕ) {s t : Vm} {phys : List ℕ}
    (h : Vm.Took M s phys t) :
    Vm.Took M s (loop surfacePage is (phys, t)).2.1 (loop surfacePage is (phys, t)).2.2
      ∧ ((loop surfacePage is (phys, t)).1 = true ↔ is.length ≤ t.pmm.freeFrames)
      ∧ ((loop surfacePage is (phys, t)).1 = true →
        (loop surfacePage is (phys, t)).2.1.length = phys.length + is.length) := by
  induction is generalizing phys t with
  | nil => exact ⟨h, iff_of_true rfl (Nat.zero_le _), fun _ => rfl⟩
  | cons i is ih =>
    rw [loop_cons]
    rcases h.allocFrame with ⟨heq, hzero⟩ | ⟨f, u, heq, hu, -, -, -, -, hfree, -⟩
    · simp only [surfacePage, heq, Bool.false_eq_true, if_false, length_cons]
      exact ⟨h, iff_of_false (by decide) (by omega), fun hc => by cases hc⟩
    · simp only [surfacePage, heq, if_true]
      have hnext : Vm.Took M s ((phys ++ [f] : List ℕ) : Multiset ℕ) (u.setFrame f zeroWords) := by
        rw [← coe_add, coe_singleton, add_comm, singleton_add]
        exact hu.congr rfl
      obtain ⟨h₁, h₂, h₃⟩ := ih hnext
      refine ⟨h₁, h₂.trans ?_, fun hc => (h₃ hc).trans ?_⟩
      · show is.length ≤ u.pmm.freeFrames ↔ is.length + 1 ≤ _
        omega
      · rw [length_append, length_cons, length_cons, length_nil]
        omega

/-- Giving back what was taken. -/
theorem took_foldl_freeFrame (l : List ℕ) {s t : Vm} (h : Vm.Took M s l t) :
    Vm.Took M s 0 (l.foldl (fun vm f => vm.freeFrame f) t) := by
  induction l generalizing t with
  | nil => exact h
  | cons f l ih => exact ih (Vm.Took.freeFrame h)

/-- The pages of a surface hold its pixels exactly if the product has not wrapped. -/
theorem pixels_le_iff {w h : ℤ} (hw : 0 < w) (hh : 0 < h) (hzero : surfacePages w h ≠ 0)
    (hmax : surfacePages w h ≤ surfaceMaxPages) :
    w * h * 4 ≤ surfacePages w h * pmmFrameSize ↔ w * h * 4 < 2 ^ 32 := by
  have hpos : 0 < w * h := Int.mul_pos hw hh
  unfold surfacePages pageCount surfaceMaxPages pmmFrameSize at *
  generalize w * h = p at *
  omega

/-- **When `surface_create` does what is asked of it**: it turns the request down, for
its size, for want of a slot or of frames; or the sides are below `2 ^ 16` and the
pixels are less than `2 ^ 32` bytes. -/
theorem surfaceCreate_ok_iff (M : Set ℕ) (m : Machine) (hm : m.vm.pmm.Inv M none) (t : ℕ)
    (w h : ℤ) :
    m.CreateOk t w h
      ↔ (w ≤ 0 ∨ h ≤ 0 ∨ surfacePages w h = 0 ∨ surfaceMaxPages < surfacePages w h)
        ∨ (∀ k, k < surfaceMax → (m.surf k).inUse = true)
        ∨ m.vm.pmm.freeFrames < surfacePages w h
        ∨ (w < 2 ^ 16 ∧ h < 2 ^ 16 ∧ w * h * 4 < 2 ^ 32) := by
  have hsame : Vm.Restored m.vm m.vm := (Vm.Took.refl hm).restored
  cases hfind : (List.range surfaceMax).find? (fun k => !(m.surf k).inUse) with
  | none =>
    have hfull : ∀ k, k < surfaceMax → (m.surf k).inUse = true := fun k hk => by
      simpa using List.find?_eq_none.1 hfind k (List.mem_range.2 hk)
    unfold CreateOk surfaceId surfaceCreate
    rw [hfind]
    refine iff_of_true ?_ (.inr (.inl hfull))
    simp only [filter_none]
    split_ifs <;> exact hsame
  | some k =>
    have hk : (m.surf k).inUse = false := by simpa using find?_some hfind
    have hlt : k < surfaceMax := List.mem_range.1 (List.mem_of_find?_eq_some hfind)
    have hslot : ¬ ∀ k, k < surfaceMax → (m.surf k).inUse = true := fun hall => by
      rw [hall k hlt] at hk
      cases hk
    unfold CreateOk surfaceId
    rw [hfind]
    simp only [filter_some]
    by_cases hsize : w ≤ 0 ∨ h ≤ 0 ∨ surfacePages w h = 0 ∨ surfaceMaxPages < surfacePages w h
    · have hback : m.surfaceCreate t w h = m := by
        unfold surfaceCreate
        split_ifs with h₁ h₂
        · rfl
        · rfl
        · tauto
      rw [hback, hk]
      exact iff_of_true hsame (.inl hsize)
    push Not at hsize
    obtain ⟨hw, hh, hzero, hmax⟩ := hsize
    have hstart : Vm.Took M m.vm (([] : List ℕ) : Multiset ℕ) m.vm := Vm.Took.refl hm
    obtain ⟨htook, hiff, hlen⟩ := took_surfacePages (range (surfacePages w h)) hstart
    rw [length_range] at hiff hlen
    have hcreate : m.surfaceCreate t w h = m.surfaceCreate t w h := rfl
    conv_rhs at hcreate => rw [surfaceCreate, if_neg (by omega), if_neg (by omega), hfind]
    generalize loop surfacePage (range (surfacePages w h)) ([], m.vm) = r at *
    obtain ⟨b, phys, v⟩ := r
    rw [hcreate]
    cases b with
    | false =>
      have hfew : m.vm.pmm.freeFrames < surfacePages w h :=
        Nat.lt_of_not_le fun hc => Bool.false_ne_true (hiff.2 hc)
      simp only [hk, Bool.false_eq_true, if_false]
      exact iff_of_true (took_foldl_freeFrame phys htook).restored (.inr (.inr (.inl hfew)))
    | true =>
      have henough := hiff.1 rfl
      have hlen : phys.length = surfacePages w h := by simpa using hlen rfl
      simp only [setSurf_self, if_true, hlen]
      -- the slot that `surface_info` reads is the one just filled
      have hinfo : surfaceInfo k ({ m with vm := v }.setSurf k ⟨true, w, h, phys, some t,
          List.replicate surfaceMapSlots none⟩) = w % 2 ^ 16 * 2 ^ 16 + h % 2 ^ 16 := by
        simp [surfaceInfo, hlt, setSurf_self]
      rw [pixels_le_iff hw hh hzero hmax, hinfo]
      constructor
      · rintro ⟨h₁, h₂, h₃⟩
        exact .inr (.inr (.inr ⟨by omega, by omega, h₁⟩))
      · rintro (hc | hc | hc | ⟨h₁, h₂, h₃⟩)
        · omega
        · exact absurd hc hslot
        · omega
        · exact ⟨h₃, by omega, by omega⟩

/-- A surface of eight by eight pixels on the small boot. -/
theorem surfaceCreate_ok_small : Boot.small.machine.CreateOk 1 8 8 := by
  have hm := (small.inv False anyPage).vm.pmm
  generalize small.machine = m at hm ⊢
  exact (surfaceCreate_ok_iff _ m hm 1 8 8).2 (.inr (.inr (.inr (by decide))))

/-- **A surface of `2 ^ 15 + 1` by `2 ^ 15` pixels has thirty-two pages**: its size in
bytes is `2 ^ 32` and a little more. -/
theorem surfaceCreate_wraps :
    Boot.small.machine.surfaceId 1 32769 32768 = some 0
      ∧ ((Boot.small.machine.surfaceCreate 1 32769 32768).surf 0).phys.length = 32 := by
  decide +kernel

end Machine

end Makar
