import Makar.VmTree

/-!
# The calls on single pages

What `vmm_create_pd`, `vmm_map_page`, `vmm_protect_page`, `vmm_unmap_page` and
`vmm_unmap_and_free` do to the invariant of the address spaces. Each of them
walks from a directory to a table without asking whose table it is, so each
needs to know that the table is not one of the kernel's. `vmm_map_page` uses up
the reference it is given, or wastes it when no page table can be had;
`vmm_unmap_page` wastes the reference of the page; `vmm_unmap_and_free` releases
it, and must therefore not be used on a page that has none.
-/

namespace Makar

open Multiset

namespace Vm

variable {K : Kernel} {W : Prop} {S : Set ℕ} {P : ℕ → ℕ → ℕ → Entry → Prop} {pds : Set ℕ}
  {L N : Multiset ℕ} {s t : Vm} {pd pd' pt i i' j f g virt phys : ℕ} {e : Entry} {w : Bool}

theorem pdIndex_lt (h : virt < 2 ^ 32) : pdIndex virt < tableSize := by
  unfold pdIndex tableSize
  omega

theorem ptIndex_lt (virt : ℕ) : ptIndex virt < tableSize := Nat.mod_lt _ (by decide)

/-- Counts of frames that had references are what they were. -/
def KeepsRefs (s t : Vm) : Prop := ∀ g, 1 ≤ s.refs g → t.refs g = s.refs g

theorem KeepsRefs.refl (s : Vm) : s.KeepsRefs s := fun _ _ => rfl

theorem Inv.Alloc.keepsRefs (ha : Inv.Alloc s t f) : s.KeepsRefs t := by
  intro g hg
  refine ha.other g ?_
  rintro rfl
  rw [ha.free] at hg
  omega

namespace Inv

/-- The place of an address. -/
def At (pd virt pd' i j : ℕ) : Prop := pd' = pd ∧ i = pdIndex virt ∧ j = ptIndex virt

/-! ## A new address space -/

/-- **`vmm_create_pd`** fails and changes nothing, or makes an address space
without pages. -/
theorem vmmCreatePd (h : s.Inv K W S P pds L) :
    s.vmmCreatePd = (none, s)
      ∨ ∃ pd t, s.vmmCreatePd = (some pd, t) ∧ pd ∉ pds ∧ s.KeepsRefs t
        ∧ t.Inv K W S P (insert pd pds) L ∧ (∀ i, t.mem pd i = K.dir i)
        ∧ ∀ g, g ≠ pd → t.mem g = s.mem g := by
  unfold Vm.vmmCreatePd
  rcases h.allocFrame with heq | ⟨pd, t, heq, ha, ht⟩
  · left
    rw [heq]
  · right
    have hmem : pd ∈ pd ::ₘ L := mem_cons_self pd L
    have hcopy : ∀ i, t.kernelEntries i = K.dir i := by
      intro i
      unfold kernelEntries
      rw [ht.kpd]
      split_ifs with hz
      · rfl
      · exact (not_not.1 hz).symm
    have hfill := ht.setFrame (ht.mem_frames ha.one.ge) (ht.data_of_mem hmem) t.kernelEntries
    have hown : ∀ i, (t.setFrame pd t.kernelEntries).mem pd i = K.dir i := by
      intro i
      rw [setFrame_mem_self]
      exact hcopy i
    refine ⟨pd, t.setFrame pd t.kernelEntries, by rw [heq], (ht.data_of_mem hmem).1, ?_, ?_, hown,
      ?_⟩
    · exact ha.keepsRefs
    · exact hfill.attachDir ha.one (fun f hf => (h.surface f hf).1) hown
    · intro g hg
      rw [setFrame_mem_of_ne hg, ha.mem]

/-! ## Mapping a page -/

/-- Filling a frame of data changes no page. -/
theorem maps_setFrame (hd : Data s pds f) (words : ℕ → Entry) (hpd : pd ∈ pds) :
    (s.setFrame f words).Maps pd i j e ↔ s.Maps pd i j e := by
  refine maps_congr rfl (setFrame_mem_of_ne ?_)
    (fun i' pt hT => setFrame_mem_of_ne ?_)
  · rintro rfl
    exact hd.1 hpd
  · rintro rfl
    exact hd.2 pd hpd i' hT

/-- **The table of an entry**: unless no frame is left, there is one
afterwards. -/
theorem vmmTable (h : s.Inv K W S P pds L) (hpd : pd ∈ pds) (hi : i < tableSize)
    (hK : ¬ K.Shared i) (hl : (s.mem pd i).large = false) :
    s.vmmTable pd i = (false, s)
      ∨ ∃ t, s.vmmTable pd i = (true, t) ∧ t.Inv K W S P pds L ∧ s.KeepsRefs t
        ∧ t.Table pd i (t.mem pd i).frame
        ∧ ∀ pd' ∈ pds, ∀ i' j e, s.Maps pd' i' j e → t.Maps pd' i' j e := by
  unfold Vm.vmmTable
  by_cases hp : (s.mem pd i).present = true
  · right
    rw [if_pos hp]
    exact ⟨s, rfl, h, KeepsRefs.refl s, h.table_of_present hpd hi hK hp hl,
      fun _ _ _ _ _ hm => hm⟩
  · rw [if_neg hp]
    rcases h.allocFrame with heq | ⟨pt, t, heq, ha, ht⟩
    · left
      rw [heq]
    · right
      rw [heq]
      have hloose := mem_cons_self pt L
      have hfill := ht.setFrame (ht.mem_frames ha.one.ge) (ht.data_of_mem hloose)
        (fun _ => Entry.zero)
      have hone : (t.setFrame pt (fun _ => Entry.zero)).refs pt = 1 := ha.one
      have hempty : ((t.setFrame pt (fun _ => Entry.zero)).mem pd i).present = false := by
        have hne : pd ≠ pt := fun heq => (ht.data_of_mem hloose).1 (heq ▸ hpd)
        rw [setFrame_mem_of_ne hne, ha.mem]
        exact Bool.not_eq_true _ ▸ hp
      have hatt : ((t.setFrame pt (fun _ => Entry.zero)).setWord pd i (Entry.pointer pt)).Inv
          K W S P pds L := by
        refine Inv.attachTable ?_ hone (fun f hf => (h.surface f hf).1) hpd hi hempty rfl rfl rfl
          (fun j _ hj => ?_) (fun _ j _ hj => ?_)
        · rw [tableRefs_zero setFrame_zero]
          exact hfill
        · rw [setFrame_zero] at hj
          cases hj
        · rw [setFrame_zero] at hj
          cases hj
      refine ⟨_, rfl, hatt, ha.keepsRefs, hatt.table_of_present hpd hi hK ?_ ?_,
        fun pd' hpd' i' j e hm => ?_⟩
      · rw [setWord_mem_self]
        rfl
      · rw [setWord_mem_self]
        rfl
      · -- the entry that is filled had no table, and no page is in the new one
        have hm' : (t.setFrame pt (fun _ => Entry.zero)).Maps pd' i' j e :=
          (maps_setFrame (ht.data_of_mem hloose) _ hpd').2
            ((maps_congr ha.kpd (congrFun ha.mem pd') (fun _ g _ => congrFun ha.mem g)).2 hm)
        obtain ⟨pt', hT, hj, he, hpr⟩ := hm'
        have hdir : ((t.setFrame pt (fun _ => Entry.zero)).setWord pd i (Entry.pointer pt)).mem
            pd' i' = (t.setFrame pt (fun _ => Entry.zero)).mem pd' i' := by
          rw [setWord_mem, if_neg]
          rintro ⟨rfl, rfl⟩
          rw [hT.2.1.1] at hempty
          cases hempty
        have hpt' : pt' ≠ pd := fun heq => hfill.table_not_dir hpd' hT (heq ▸ hpd)
        refine ⟨pt', ⟨hT.1, ?_, by rw [hdir]; exact hT.2.2⟩, hj, ?_, hpr⟩
        · unfold OwnTable
          rw [hdir]
          exact hT.2.1
        · rw [setWord_mem_of_ne hpt', he]

/-- **`vmm_map_page`** puts the reference it is given into the table, or wastes
it. -/
theorem vmmMapPage (h : s.Inv K W S P pds (N + L)) (hS : ∀ f ∈ S, f ∈ L) (hpd : pd ∈ pds)
    (hv : virt < 2 ^ 32) (hK : ¬ K.Shared (pdIndex virt)) (hN : phys ∉ S → phys ∈ N)
    (hP : P pd (pdIndex virt) (ptIndex virt) (Entry.leaf phys w))
    (hW : W → w = true → phys ∉ S → s.refs phys = 1) :
    (s.vmmMapPage pd virt phys w).Inv K W S P pds L
      ∧ s.KeepsRefs (s.vmmMapPage pd virt phys w)
      ∧ ∀ pd' ∈ pds, ∀ i j e, s.Maps pd' i j e → ¬ At pd virt pd' i j →
        (s.vmmMapPage pd virt phys w).Maps pd' i j e := by
  have hforget : s.Inv K W S P pds L := h.forget (le_add_left L N) hS
  unfold Vm.vmmMapPage
  split_ifs with hl
  · exact ⟨hforget, KeepsRefs.refl s, fun _ _ _ _ _ hm _ => hm⟩
  rcases h.vmmTable hpd (pdIndex_lt hv) hK (Bool.not_eq_true _ ▸ hl) with
    heq | ⟨t, heq, ht, hkeep, htab, hstay⟩
  · simp only [heq, Bool.false_eq_true, if_false]
    exact ⟨hforget, KeepsRefs.refl s, fun _ _ _ _ _ hm _ => hm⟩
  · simp only [heq, if_true]
    refine ⟨?_, hkeep, fun pd' hpd' i j e hm hat => ?_⟩
    swap
    · unfold At at hat
      rw [ht.maps_setWord hpd htab (ptIndex_lt virt) hpd', if_neg hat]
      exact hstay pd' hpd' i j e hm
    rw [← zero_add L]
    refine ht.replaceEntry hpd htab (ptIndex_lt virt) hS (fun _ => hN) (.inl rfl) (fun _ => hP)
      (fun hw _ hwr hpS => ?_)
    have hone := hW hw hwr hpS
    show t.refs phys = 1
    rw [hkeep phys hone.ge, hone]

/-- **A page of a new frame**: what the page-fault handler, the loader and
`SYS_MMAP2` do with a frame they have allocated. -/
theorem newPage (h : s.Inv K W S P pds L) (ha : Alloc s t phys)
    (ht : t.Inv K W S P pds (phys ::ₘ L)) (hpd : pd ∈ pds) (hv : virt < 2 ^ 32)
    (hK : ¬ K.Shared (pdIndex virt)) (words : ℕ → Entry)
    (hP : phys ∉ S → P pd (pdIndex virt) (ptIndex virt) (Entry.leaf phys w)) :
    ((t.setFrame phys words).vmmMapPage pd virt phys w).Inv K W S P pds L
      ∧ ∀ pd' ∈ pds, ∀ i j e, s.Maps pd' i j e → ¬ At pd virt pd' i j →
        ((t.setFrame phys words).vmmMapPage pd virt phys w).Maps pd' i j e := by
  have hS : ∀ f ∈ S, f ∈ L := fun f hf => (h.surface f hf).1
  have hmem := mem_cons_self phys L
  have hfill : (t.setFrame phys words).Inv K W S P pds ({phys} + L) :=
    ht.setFrame (ht.mem_frames ha.one.ge) (ht.data_of_mem hmem) words
  obtain ⟨hinv, -, hstay⟩ := hfill.vmmMapPage hS hpd hv hK
    (fun _ => mem_singleton_self phys) (hP (ht.not_mem_surface hS)) (fun _ _ _ => ha.one)
  refine ⟨hinv, fun pd' hpd' i j e hm => hstay pd' hpd' i j e ?_⟩
  rw [maps_setFrame (ht.data_of_mem hmem) words hpd']
  exact (maps_congr ha.kpd (congrFun ha.mem pd') (fun _ g _ => congrFun ha.mem g)).2 hm

/-! ## Changing and removing a page -/

section

variable (h : s.Inv K W S P pds L) (hpd : pd ∈ pds) (hv : virt < 2 ^ 32)
include h hpd hv

/-- The table the walkers find, when it is not one of the kernel's. -/
theorem tableOf (hK : ¬ K.Shared (pdIndex virt)) :
    (s.tableOf pd virt = none ∧ ∀ pt, ¬ s.Table pd (pdIndex virt) pt)
      ∨ ∃ pt, s.tableOf pd virt = some pt ∧ s.Table pd (pdIndex virt) pt := by
  unfold Vm.tableOf
  by_cases hc : (s.mem pd (pdIndex virt)).present ∧ ¬ (s.mem pd (pdIndex virt)).large
  · right
    rw [if_pos hc]
    exact ⟨_, rfl, h.table_of_present hpd (pdIndex_lt hv) hK hc.1 (Bool.not_eq_true _ ▸ hc.2)⟩
  · left
    rw [if_neg hc]
    refine ⟨rfl, ?_⟩
    rintro pt ⟨-, ⟨hp, hl, -⟩, -⟩
    exact hc ⟨hp, by rw [hl]; exact Bool.false_ne_true⟩

/-- The table the walkers find in one of the kernel's entries has no user page
and no page that is copy-on-write. -/
theorem tableOf_shared (hK : K.Shared (pdIndex virt)) (ht : s.tableOf pd virt = some pt) (j : ℕ) :
    (s.mem pt j).user = false ∧ (s.mem pt j).cow = false := by
  have hdir : s.mem pd (pdIndex virt) = K.dir (pdIndex virt) := by
    rcases h.shape pd hpd (pdIndex virt) (pdIndex_lt hv) with heq | ⟨hz, -⟩
    · exact heq
    · have hp := hK.1
      rw [hz] at hp
      exact absurd hp Bool.false_ne_true
  have hpt : (K.dir (pdIndex virt)).frame = pt := by
    unfold Vm.tableOf at ht
    simp only [hdir, hK.1, hK.2] at ht
    simpa using ht
  have hout : (K.dir (pdIndex virt)).frame ∉ K.frames := by
    rcases K.entry (pdIndex virt) with hz | ⟨-, hl | hn⟩
    · have hp := hK.1
      rw [hz] at hp
      exact absurd hp Bool.false_ne_true
    · rw [hK.2] at hl
      exact absurd hl Bool.false_ne_true
    · exact hn
  rw [← hpt, h.kernel _ hout]
  exact K.private_pages _ j hK.1 hK.2

end

/-- A place without a table, or with an entry that is not present, maps
nothing. -/
theorem not_maps_of_tableOf (ht : ∀ pt, ¬ s.Table pd i pt) : ¬ s.Maps pd i j e :=
  fun ⟨pt, hT, _⟩ => ht pt hT

theorem not_maps_of_not_present (ht : s.Table pd i pt) (hp : ¬ (s.mem pt j).present = true) :
    ¬ s.Maps pd i j e := by
  rintro ⟨pt', hT, -, he, hpr⟩
  have hpt : pt' = pt := hT.2.2.symm.trans ht.2.2
  rw [hpt] at he
  rw [he] at hp
  exact hp hpr

/-- A place that maps nothing. -/
theorem maps_off_iff (hno : ∀ e, ¬ s.Maps pd (pdIndex virt) (ptIndex virt) e) :
    s.Maps pd' i j e ↔ s.Maps pd' i j e ∧ ¬ At pd virt pd' i j := by
  refine ⟨fun hm => ⟨hm, ?_⟩, And.left⟩
  rintro ⟨rfl, rfl, rfl⟩
  exact hno e hm

section

variable (h : s.Inv K W S P pds L) (hpd : pd ∈ pds)
include h hpd

/-- **`vmm_protect_page`** gives the page the flags asked for, and no count
changes. -/
theorem vmmProtectPage (hv : virt < 2 ^ 32) (hK : ¬ K.Shared (pdIndex virt))
    (hP : ∀ e, s.Maps pd (pdIndex virt) (ptIndex virt) e →
      P pd (pdIndex virt) (ptIndex virt) (Entry.leaf e.frame w))
    (hW : W → w = true → ∀ e, s.Maps pd (pdIndex virt) (ptIndex virt) e → e.frame ∉ S →
      s.refs e.frame = 1) :
    (s.vmmProtectPage pd virt w).Inv K W S P pds L
      ∧ (s.vmmProtectPage pd virt w).pmm = s.pmm := by
  unfold Vm.vmmProtectPage
  rcases h.tableOf hpd hv hK with ⟨heq, -⟩ | ⟨pt, heq, hT⟩
  · rw [heq]
    exact ⟨h, rfl⟩
  · simp only [heq]
    by_cases hp : (s.mem pt (ptIndex virt)).present = true
    · have hm : s.Maps pd (pdIndex virt) (ptIndex virt) (s.mem pt (ptIndex virt)) :=
        ⟨pt, hT, ptIndex_lt virt, rfl, hp⟩
      rw [if_pos hp]
      exact ⟨h.reflagEntry hpd hT (ptIndex_lt virt) hp rfl (fun _ => hP _ hm)
        (fun hw _ hwr heS => hW hw hwr (s.mem pt (ptIndex virt)) hm heS), rfl⟩
    · rw [if_neg hp]
      exact ⟨h, rfl⟩

/-- What a place maps after its entry has been cleared. -/
theorem maps_clear (hT : s.Table pd (pdIndex virt) pt) (hpd' : pd' ∈ pds) :
    (s.setWord pt (ptIndex virt) Entry.zero).Maps pd' i j e
      ↔ s.Maps pd' i j e ∧ ¬ At pd virt pd' i j := by
  rw [h.maps_setWord hpd hT (ptIndex_lt virt) hpd']
  unfold At
  split_ifs with hat
  · simp [hat, Entry.zero]
  · simp [hat]

section

variable (hv : virt < 2 ^ 32) (hK : ¬ K.Shared (pdIndex virt))
include hv hK

/-- **`vmm_unmap_page`** removes the page, and wastes its reference. -/
theorem vmmUnmapPage :
    (s.vmmUnmapPage pd virt).Inv K W S P pds L
      ∧ (s.vmmUnmapPage pd virt).pmm = s.pmm
      ∧ ∀ pd' ∈ pds, ∀ i j e, (s.vmmUnmapPage pd virt).Maps pd' i j e
        ↔ s.Maps pd' i j e ∧ ¬ At pd virt pd' i j := by
  unfold Vm.vmmUnmapPage
  rcases h.tableOf hpd hv hK with ⟨heq, hno⟩ | ⟨pt, heq, hT⟩
  · rw [heq]
    exact ⟨h, rfl, fun _ _ _ _ _ => maps_off_iff fun _ => not_maps_of_tableOf hno⟩
  · simp only [heq]
    split_ifs with hp
    · refine ⟨?_, rfl, fun pd' hpd' i j e => h.maps_clear hpd hT hpd'⟩
      rw [← zero_add L] at h ⊢
      exact h.replaceEntry hpd hT (ptIndex_lt virt)
        (fun f hf => by simpa using (h.surface f hf).1) (fun hc => absurd hc (by decide))
        (.inl rfl) (fun hc => absurd hc (by decide)) (fun _ hc => absurd hc (by decide))
    · exact ⟨h, rfl, fun _ _ _ _ _ => maps_off_iff fun _ => not_maps_of_not_present hT hp⟩

/-- **`vmm_unmap_and_free`** removes the page and gives up its reference, which
must not be a surface's. -/
theorem vmmUnmapAndFree (hS : ∀ e, s.Maps pd (pdIndex virt) (ptIndex virt) e → e.frame ∉ S) :
    (s.vmmUnmapAndFree pd virt).Inv K W S P pds L
      ∧ (∀ g ∈ L, s.refs g = 1 → (s.vmmUnmapAndFree pd virt).refs g = 1)
      ∧ ∀ pd' ∈ pds, ∀ i j e, (s.vmmUnmapAndFree pd virt).Maps pd' i j e
        ↔ s.Maps pd' i j e ∧ ¬ At pd virt pd' i j := by
  unfold Vm.vmmUnmapAndFree
  rcases h.tableOf hpd hv hK with ⟨heq, hno⟩ | ⟨pt, heq, hT⟩
  · rw [heq]
    exact ⟨h, fun _ _ hg => hg, fun _ _ _ _ _ => maps_off_iff fun _ => not_maps_of_tableOf hno⟩
  · simp only [heq]
    by_cases hp : (s.mem pt (ptIndex virt)).present = true
    · have hm : s.Maps pd (pdIndex virt) (ptIndex virt) (s.mem pt (ptIndex virt)) :=
        ⟨pt, hT, ptIndex_lt virt, rfl, hp⟩
      have hfS := hS _ hm
      have hclear : (s.setWord pt (ptIndex virt) Entry.zero).Inv K W S P pds
          ({(s.mem pt (ptIndex virt)).frame} + L) := by
        rw [← zero_add L] at h
        exact h.replaceEntry hpd hT (ptIndex_lt virt)
          (fun f hf => by simpa using (h.surface f hf).1) (fun hc => absurd hc (by decide))
          (.inr ⟨hp, hfS, rfl⟩) (fun hc => absurd hc (by decide))
          (fun _ hc => absurd hc (by decide))
      rw [if_pos hp, hclear.releaseFrame_eq (h.refs_of_maps hpd hm)]
      refine ⟨hclear.freeFrame hfS, fun g hg hg1 => ?_,
        fun pd' hpd' i j e => h.maps_clear hpd hT hpd'⟩
      rw [hclear.refs_freeFrame, if_neg, setWord_refs, hg1]
      rintro rfl
      exact h.covered.not_mem_of_refers hg1.le (refers_page hpd hm hfS) hg
    · rw [if_neg hp]
      exact ⟨h, fun _ _ hg => hg,
        fun _ _ _ _ _ => maps_off_iff fun _ => not_maps_of_not_present hT hp⟩

end

end

end Inv

end Vm

end Makar
