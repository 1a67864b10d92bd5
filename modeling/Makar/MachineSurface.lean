import Makar.MachineMmap

/-!
# Surfaces

A surface has one reference to each of its frames, and its pages in the address
spaces have none. What stands in for them is the table of map slots: the
invariant says that a page of a surface is where a slot of the surface says. A
slot is cleared only after the pages it is about, so when `surface_gc` finds no
slot there is no page left, and the frames can be given back.
-/

namespace Makar

open Function List Multiset Option

namespace Machine

variable {K : Kernel} {W : Prop} {O : ℕ → ℕ → ℕ → Entry → Prop} {P : ℕ → ℕ → ℕ → Entry → Prop}
  {S pds : Set ℕ} {L : Multiset ℕ} {m : Machine} {vm v : Vm} {s : Surface}
  {t k k' pd i j f n base : ℕ} {e : Entry}

/-! ## The surface table -/

theorem setSurf_self : (m.setSurf k s).surf k = s := by simp [setSurf]

theorem setSurf_of_ne (hk : k' ≠ k) : (m.setSurf k s).surf k' = m.surf k' := by
  simp [setSurf, hk]

/-- The references of the surface table grow by what is put into an empty
slot. -/
theorem surfRefs_update {surf : ℕ → Surface} (hk : k < surfaceMax) (hnil : (surf k).phys = [])
    (s : Surface) : surfRefs (Function.update surf k s) = s.phys + surfRefs surf := by
  have hoff : ∀ i, i ≠ k →
      ((update surf k s i).phys : Multiset ℕ) = ((surf i).phys : Multiset ℕ) := by
    intro i hi
    rw [update_of_ne hi]
  have hsum := sum_range_update hk (by rw [hnil]; rfl) hoff
  rw [update_self] at hsum
  exact hsum

/-- The references of a slot and of the other slots. -/
theorem surfRefs_split (surf : ℕ → Surface) (hk : k < surfaceMax) :
    surfRefs surf
      = (surf k).phys + surfRefs (Function.update surf k Surface.empty) := by
  have hnil : (update surf k Surface.empty k).phys = [] := by
    rw [update_self]
    rfl
  have hsplit := surfRefs_update hk hnil (surf k)
  rw [update_idem, update_eq_self] at hsplit
  exact hsplit

section

variable (hphys : s.phys = (m.surf k).phys)
include hphys

/-- A slot that keeps its frames leaves the references as they are. -/
theorem setSurf_phys (k' : ℕ) : ((m.setSurf k s).surf k').phys = (m.surf k').phys := by
  by_cases hk : k' = k
  · subst hk
    rw [setSurf_self, hphys]
  · rw [setSurf_of_ne hk]

theorem surfFrames_setSurf : (m.setSurf k s).surfFrames = m.surfFrames := by
  unfold surfFrames
  simp only [setSurf_phys hphys]

theorem loose_setSurf : (m.setSurf k s).loose = m.loose := by
  unfold loose surfRefs
  simp only [setSurf_phys hphys]
  rfl

end

/-- A slot of the surface table that is in use. -/
theorem Shape.lt_of_inUse (h : m.Shape K) (hk : (m.surf k).inUse = true) : k < surfaceMax := by
  by_contra hge
  rw [h.range k (Nat.not_lt.1 hge)] at hk
  cases hk

/-- Another surface in a slot. -/
theorem Shape.setSurf (h : m.Shape K) (hfree : s.inUse = false → s = Surface.empty)
    (hrange : surfaceMax ≤ k → s.inUse = false)
    (hslots : ∀ x, some x ∈ s.map →
      (m.tasks x.task).state = .live ∧ (m.tasks x.task).pageDir.isSome = true
        ∧ ∀ p, p < s.phys.length → ¬ K.Shared (pdIndex (pageAt x.baseVa p)))
    (hsized : s.phys.length ≤ surfaceMaxPages) : (m.setSurf k s).Shape K := by
  refine ⟨h.dirs, h.unused, fun i => ?_, fun i => ?_, fun i => ?_, h.cached, fun i => ?_⟩ <;>
    by_cases hik : i = k
  · rwa [hik, setSurf_self]
  · rw [setSurf_of_ne hik]
    exact h.free i
  · rwa [hik, setSurf_self]
  · rw [setSurf_of_ne hik]
    exact h.range i
  · rwa [hik, setSurf_self]
  · rw [setSurf_of_ne hik]
    exact h.slots i
  · rwa [hik, setSurf_self]
  · rw [setSurf_of_ne hik]
    exact h.sized i

/-- A slot of the surface table may be cleared. -/
theorem Shape.clearSurf (h : m.Shape K) : (m.setSurf k Surface.empty).Shape K :=
  h.setSurf (fun _ => rfl) (fun _ => rfl) (fun _ hx => nomatch List.eq_of_mem_replicate hx)
    (Nat.zero_le _)

/-- Two surfaces have no frame in common. -/
theorem Inv.surf_inj (h : m.Inv K W O) (hk : k < surfaceMax) (hf : f ∈ (m.surf k).phys)
    (hf' : f ∈ (m.surf k').phys) : k' = k := by
  by_contra hne
  have hmem : f ∈ surfRefs (update m.surf k Surface.empty) := by
    refine h.clearSurf.mem_surfRefs ⟨k', ?_⟩
    rw [setSurf_of_ne hne]
    exact hf'
  have h₁ := h.vm.covered.count_le f
  rw [(h.vm.surface f ⟨k, hf⟩).2, loose, surfRefs_split m.surf hk, count_add,
    count_add] at h₁
  have h₂ := one_le_count_iff_mem.2 hmem
  have h₃ := one_le_count_iff_mem.2 (mem_coe.2 hf)
  omega

/-- **The map slots of a surface change**, and memory with them. The new slots
are in order, and every page of the surface that is left has one. -/
theorem Shape.setSlots (h : m.Shape K) (hv : v.Inv K W m.surfFrames P m.pds m.loose)
    (hphys : s.phys = (m.surf k).phys) (huse : s.inUse = true) (hk : k < surfaceMax)
    (hslots : ∀ x, some x ∈ s.map →
      (m.tasks x.task).state = .live ∧ (m.tasks x.task).pageDir.isSome = true
        ∧ ∀ p, p < s.phys.length → ¬ K.Shared (pdIndex (pageAt x.baseVa p)))
    (hP : ∀ pd ∈ m.pds, ∀ i j e, P pd i j e → e.user = true ∧ O pd i j e
      ∧ ∀ k', e.frame ∈ (m.surf k').phys → (m.setSurf k s).SlotAt pd i j k') :
    ({ m with vm := v }.setSurf k s).Inv K W O := by
  have hfr : ({ m with vm := v }.setSurf k s).surfFrames = m.surfFrames :=
    surfFrames_setSurf (m := { m with vm := v }) hphys
  have hlo : ({ m with vm := v }.setSurf k s).loose = m.loose :=
    loose_setSurf (m := { m with vm := v }) hphys
  refine ⟨(h.setVm v).setSurf (by simp [huse]) (by omega) hslots (hphys ▸ h.sized k), ?_⟩
  · rw [hfr, hlo]
    refine hv.imp (fun pd hpd i j e hp => ?_)
    obtain ⟨hu, ho, hs⟩ := hP pd hpd i j e hp
    refine ⟨⟨hu, fun k' hk' => ?_⟩, ho⟩
    rw [setSurf_phys (m := { m with vm := v }) hphys] at hk'
    exact hs k' hk'

/-- Where a slot of another surface is, it stays. -/
theorem SlotAt.of_ne (h : m.SlotAt pd i j k') (hk : k' ≠ k) :
    (m.setSurf k s).SlotAt pd i j k' := by
  obtain ⟨x, hx, hd, p, hp, hi⟩ := h
  refine ⟨x, ?_, hd, p, ?_, hi⟩
  · rw [setSurf_of_ne hk]
    exact hx
  · rw [setSurf_of_ne hk]
    exact hp

/-! ## `surface_gc` -/

/-- The surface has no holder. -/
def Unheld (s : Surface) : Prop := s.creator.isNone = true ∧ s.map.all Option.isNone = true

theorem Unheld.not_mem (h : Unheld s) (x : MapSlot) : some x ∉ s.map := by
  intro hx
  have hn := all_eq_true.1 h.2 _ hx
  cases hn

/-- Giving the frames of a surface back, none of which is frame zero. -/
theorem foldl_nonzero (l : List ℕ) (hl : ∀ f ∈ l, f ≠ 0) (vm : Vm) :
    l.foldl (fun vm f => if f ≠ 0 then vm.freeFrame f else vm) vm
      = l.foldl (fun vm f => vm.freeFrame f) vm := by
  refine foldl_ext _ _ vm (fun a f hf => ?_)
  rw [if_pos (hl f hf)]

/-- **A surface nobody holds gives its frames back.** -/
theorem Inv.dropSurface (h : m.Inv K W O) (hk : k < surfaceMax) (hun : Unheld (m.surf k)) :
    ({ m with vm := (m.surf k).phys.foldl (fun vm f => if f ≠ 0 then vm.freeFrame f else vm) m.vm
      }.setSurf k Surface.empty).Inv K W O
      ∧ ∀ g, ((m.surf k).phys.foldl (fun vm f => if f ≠ 0 then vm.freeFrame f else vm) m.vm).refs g
        = m.vm.refs g - (m.surf k).phys.count g := by
  obtain ⟨S', hS'⟩ : ∃ S', S' = (m.setSurf k Surface.empty).surfFrames := ⟨_, rfl⟩
  have hmem : ∀ g, g ∈ S' ↔ ∃ i, i ≠ k ∧ g ∈ (m.surf i).phys := by
    intro g
    rw [hS']
    constructor
    · rintro ⟨i, hi⟩
      by_cases hik : i = k
      · rw [hik, setSurf_self] at hi
        exact absurd hi not_mem_nil
      · rw [setSurf_of_ne hik] at hi
        exact ⟨i, hik, hi⟩
    · rintro ⟨i, hik, hi⟩
      refine ⟨i, ?_⟩
      rw [setSurf_of_ne hik]
      exact hi
  have hsub : S' ⊆ m.surfFrames := by
    intro g hg
    obtain ⟨i, -, hi⟩ := (hmem g).1 hg
    exact ⟨i, hi⟩
  -- a page of the surface would need a slot, and there is none
  have hshrink : m.vm.Inv K W S' (m.Pages O) m.pds m.loose := by
    refine h.vm.shrink hsub (fun pd hpd i j e hm hf => ?_)
    obtain ⟨k', hk'⟩ := hf
    refine (hmem _).2 ⟨k', ?_, hk'⟩
    rintro rfl
    obtain ⟨x, hx, -⟩ := (h.vm.maps pd hpd i j e hm).1.2 k' hk'
    exact hun.not_mem x hx
  have hsplit : m.loose = (m.surf k).phys
      + (pcRefs m.cache + surfRefs (update m.surf k Surface.empty)) := by
    rw [loose, surfRefs_split m.surf hk, add_left_comm]
  have hnz : ∀ f ∈ (m.surf k).phys, f ≠ 0 := by
    rintro f hf rfl
    exact K.zero_not_mem (h.vm.mem_frames (h.vm.surface 0 ⟨k, hf⟩).2.ge)
  have hshape : (m.setSurf k Surface.empty).Shape K := h.clearSurf
  rw [hsplit] at hshrink
  obtain ⟨hfree, hrefs⟩ := hshrink.foldl_freeFrame (m.surf k).phys (fun g hg =>
    mem_add.2 (.inr (hshape.mem_surfRefs (hS' ▸ hg))))
  rw [foldl_nonzero _ hnz]
  refine ⟨⟨hshape.setVm _, ?_⟩, hrefs⟩
  rw [hS'] at hfree
  refine hfree.imp (fun pd hpd i j e hp => ⟨⟨hp.1.1, fun k' hk' => ?_⟩, hp.2⟩)
  by_cases hkk : k' = k
  · rw [hkk, setSurf_self] at hk'
    exact absurd hk' not_mem_nil
  · rw [setSurf_of_ne hkk] at hk'
    exact (hp.1.2 k' hk').of_ne hkk

/-- **`surface_gc`.** -/
theorem Inv.surfaceGc (h : m.Inv K W O) (hk : k < surfaceMax) : (m.surfaceGc k).Inv K W O := by
  unfold Machine.surfaceGc
  simp only []
  split_ifs with hun
  · rw [Bool.and_eq_true] at hun
    exact (h.dropSurface hk hun).1
  · exact h

/-! ## `surface_create` -/

/-- **The allocation loop of `surface_create`**: the frames it has are loose,
with one reference each. -/
theorem loop_surfacePage (is : List ℕ) (h : vm.Inv K W S P pds L) :
    (loop surfacePage is ([], vm)).2.2.Inv K W S P pds ((loop surfacePage is ([], vm)).2.1 + L)
      ∧ ∀ f ∈ (loop surfacePage is ([], vm)).2.1, (loop surfacePage is ([], vm)).2.2.refs f = 1 := by
  refine loop_invariant (P := fun r : List ℕ × Vm =>
    r.2.Inv K W S P pds (r.1 + L) ∧ ∀ f ∈ r.1, r.2.refs f = 1) is (fun r i _ hr => ?_) ?_
  · obtain ⟨hinv, hone⟩ := hr
    unfold surfacePage
    rcases hinv.allocFrame with heq | ⟨f, u, heq, ha, hu⟩
    · rw [heq]
      exact ⟨hinv, hone⟩
    · rw [heq]
      have hloose := mem_cons_self f ((r.1 : Multiset ℕ) + L)
      have hfill := hu.setFrame (hu.mem_frames ha.one.ge) (hu.data_of_mem hloose) zeroWords
      refine ⟨?_, fun g hg => ?_⟩
      · show (u.setFrame f zeroWords).Inv K W S P pds (((r.1 ++ [f] : List ℕ) : Multiset ℕ) + L)
        rw [← coe_add, coe_singleton, add_comm (r.1 : Multiset ℕ), add_assoc,
          singleton_add]
        exact hfill
      · rcases mem_append.1 hg with hg | hg
        · have hne : g ≠ f := by
            intro hgf
            have hz := ha.free
            rw [← hgf, hone g hg] at hz
            omega
          exact (ha.other g hne).trans (hone g hg)
        · rw [List.mem_singleton.1 hg]
          exact ha.one
  · rw [coe_nil, zero_add]
    exact ⟨h, fun f hf => absurd hf not_mem_nil⟩

/-- There are as many frames as turns, at most. -/
theorem length_surfacePage (is : List ℕ) (l : List ℕ) (vm : Vm) :
    (loop surfacePage is (l, vm)).2.1.length ≤ l.length + is.length := by
  induction is generalizing l vm with
  | nil => exact le_rfl
  | cons i is ih =>
    rw [loop_cons]
    have hone : (surfacePage (l, vm) i).2.1.length ≤ l.length + 1 := by
      unfold surfacePage
      rcases vm.allocFrame with ⟨_ | f, u⟩
      · exact Nat.le_succ _
      · exact (length_append).le
    have hrest := ih (surfacePage (l, vm) i).2.1 (surfacePage (l, vm) i).2.2
    rw [length_cons]
    split_ifs
    · exact hrest.trans (by omega)
    · exact hone.trans (by omega)

/-- **A new surface** takes loose frames with one reference each. -/
theorem Shape.newSurface {w y : ℤ} {phys : List ℕ} (h : m.Shape K) (hk : k < surfaceMax)
    (hfree : (m.surf k).inUse = false) (creator : ℕ)
    (hv : v.Inv K W m.surfFrames (m.Pages O) m.pds (phys + m.loose))
    (hone : ∀ f ∈ phys, v.refs f = 1) (hlen : phys.length ≤ surfaceMaxPages) :
    ({ m with vm := v }.setSurf k
      ⟨true, w, y, phys, some creator, replicate surfaceMapSlots none⟩).Inv K W O := by
  obtain ⟨s, hs⟩ : ∃ s : Surface,
      s = ⟨true, w, y, phys, some creator, replicate surfaceMapSlots none⟩ := ⟨_, rfl⟩
  have hphys : s.phys = phys := by rw [hs]
  have hnoslot : ∀ x, some x ∉ s.map := by
    intro x hx
    rw [hs] at hx
    cases List.eq_of_mem_replicate hx
  have hempty := h.free k hfree
  have hloose : ({ m with vm := v }.setSurf k s).loose = phys + m.loose := by
    show pcRefs m.cache + surfRefs (update m.surf k s) = _
    rw [surfRefs_update hk (by rw [hempty]; rfl), hphys, add_left_comm]
    rfl
  have hmem : ∀ f ∈ ({ m with vm := v }.setSurf k s).surfFrames, f ∈ phys ∨ f ∈ m.surfFrames := by
    rintro f ⟨i, hi⟩
    by_cases hik : i = k
    · rw [hik, setSurf_self, hphys] at hi
      exact .inl hi
    · rw [setSurf_of_ne hik] at hi
      exact .inr ⟨i, hi⟩
  have hsub : m.surfFrames ⊆ ({ m with vm := v }.setSurf k s).surfFrames := by
    rintro f ⟨i, hi⟩
    by_cases hik : i = k
    · rw [hik, hempty] at hi
      exact absurd hi not_mem_nil
    · refine ⟨i, ?_⟩
      rw [setSurf_of_ne hik]
      exact hi
  rw [← hs]
  refine ⟨(h.setVm v).setSurf (by simp [hs]) (by omega) (fun x hx => absurd hx (hnoslot x))
    (hphys ▸ hlen), ?_⟩
  · rw [hloose]
    have hgrow := hv.grow hsub (fun f hf => by
      rcases hmem f hf with hf | hf
      · exact ⟨mem_add.2 (.inl (mem_coe.2 hf)), hone f hf⟩
      · exact hv.surface f hf)
    refine { hgrow with maps := fun pd hpd i j e hm => ?_ }
    have hp := hv.maps pd hpd i j e hm
    refine ⟨⟨hp.1.1, fun k' hk' => ?_⟩, hp.2⟩
    by_cases hkk : k' = k
    · -- a page cannot have the frame yet: its one reference is loose
      rw [hkk, setSurf_self, hphys] at hk'
      have hl : e.frame ∈ (phys : Multiset ℕ) + m.loose :=
        mem_add.2 (.inl (mem_coe.2 hk'))
      have hnS : e.frame ∉ m.surfFrames := by
        intro hc
        have h₁ := hv.covered.count_le e.frame
        rw [hone _ hk', count_add] at h₁
        have h₂ := one_le_count_iff_mem.2 (mem_coe.2 hk')
        have hml : e.frame ∈ m.loose := mem_add.2 (.inr (h.mem_surfRefs hc))
        have h₃ := one_le_count_iff_mem.2 hml
        omega
      exact absurd hl (hv.covered.not_mem_of_refers (hone _ hk').le (Vm.refers_page hpd hm hnS))
    · rw [setSurf_of_ne hkk] at hk'
      exact SlotAt.of_ne (hp.1.2 k' hk') hkk

/-- **`surface_create`.** -/
theorem Inv.surfaceCreate (h : m.Inv K W O) (t : ℕ) (w y : ℤ) :
    (m.surfaceCreate t w y).Inv K W O := by
  unfold Machine.surfaceCreate
  split_ifs with hdim hpages
  · exact h
  · exact h
  cases hfind : (List.range surfaceMax).find? (fun k => !(m.surf k).inUse) with
  | none => exact h
  | some k =>
    have hk : k < surfaceMax := List.mem_range.1 (List.mem_of_find?_eq_some hfind)
    have hfree : (m.surf k).inUse = false := by
      have := find?_some hfind
      simpa using this
    obtain ⟨hinv, hone⟩ := loop_surfacePage (range (surfacePages w y)) h.vm
    have hlen := length_surfacePage (range (surfacePages w y)) [] m.vm
    rw [length_range, length_nil, Nat.zero_add] at hlen
    simp only []
    generalize loop surfacePage (range (surfacePages w y)) ([], m.vm) = r at hinv hone hlen
    obtain ⟨b, phys, v⟩ := r
    cases b with
    | false =>
      exact h.setVm (hinv.foldl_freeFrame phys (fun f hf => (h.vm.surface f hf).1)).1
    | true => exact h.newSurface hk hfree t hinv hone (hlen.trans (by omega))

/-! ## `surface_map` -/

variable {l l' : List (Option MapSlot)}

variable {x : MapSlot}

/-- The slots of two lists that differ in one, which is free in the first. -/
theorem mem_slots_of_split (h : ∃ a b, l = a ++ none :: b ∧ l' = a ++ some x :: b) :
    some x ∈ l' ∧ (∀ y, some y ∈ l' → y = x ∨ some y ∈ l) ∧ ∀ y, some y ∈ l → some y ∈ l' := by
  obtain ⟨a, b, rfl, rfl⟩ := h
  refine ⟨by simp, fun y hy => ?_, fun y hy => ?_⟩ <;>
    simp only [mem_append, List.mem_cons, reduceCtorEq, some.injEq, false_or] at hy ⊢ <;> tauto

/-- A free slot is filled. -/
theorem fillSlot_split (h : fillSlot x l = some l') :
    ∃ a b, l = a ++ none :: b ∧ l' = a ++ some x :: b := by
  induction l generalizing l' with
  | nil => cases h
  | cons o l ih =>
    cases o with
    | none => exact ⟨[], l, rfl, (some.inj h).symm⟩
    | some z =>
      obtain ⟨l₁, hl₁, rfl⟩ := map_eq_some_iff.1 h
      obtain ⟨a, b, rfl, rfl⟩ := ih hl₁
      exact ⟨some z :: a, b, rfl, rfl⟩

/-- **The pages of a surface are mapped**, for which no reference is needed. -/
theorem mapPages_spec {phys : List ℕ} (h : vm.Inv K W S P pds L) (hpd : pd ∈ pds)
    (hS : ∀ f ∈ phys, f ∈ S) (hK : ∀ p < phys.length, ¬ K.Shared (pdIndex (pageAt base p)))
    (hP : ∀ p < phys.length, ∀ f ∈ phys,
      P pd (pdIndex (pageAt base p)) (ptIndex (pageAt base p)) (Entry.leaf f true)) :
    (mapPages pd base phys vm).Inv K W S P pds L := by
  unfold mapPages
  refine foldl_invariant_mem (P := fun v : Vm => v.Inv K W S P pds L) phys.zipIdx
    (fun v x hx hv => ?_) h
  obtain ⟨f, p⟩ := x
  have hf : f ∈ phys := by
    have := mem_zipIdx hx
    rw [this.2.2]
    exact getElem_mem _
  have hp : p < phys.length := by
    have := mem_zipIdx hx
    omega
  have hv' : v.Inv K W S P pds (0 + L) := by
    rw [zero_add]
    exact hv
  exact (hv'.vmmMapPage (fun g hg => (hv.surface g hg).1) hpd (pageAt_lt base p) (hK p hp)
    (fun hn => absurd (hS f hf) hn) (hP p hp f hf) (fun _ _ hn => absurd (hS f hf) hn)).1

/-- The condition on `surface_map`: the range the task gets is not in a
directory entry of `B`. -/
def SurfaceMapOk (B : ℕ → Prop) (k t : ℕ) (m : Machine) : Prop :=
  ∀ base, ((m.tasks t).reserve (m.surf k).phys.length).1 = some base →
    ∀ p < (m.surf k).phys.length, ¬ B (pdIndex (pageAt base p))

/-- **`surface_map`** keeps the invariant, called by a live task. -/
theorem Inv.surfaceMap (h : m.Inv K W O) (hlive : (m.tasks t).state = .live)
    (hok : m.SurfaceMapOk K.Shared k t)
    (hO : ∀ pd base, (m.tasks t).pageDir = some pd →
      ((m.tasks t).reserve (m.surf k).phys.length).1 = some base →
        ∀ p < (m.surf k).phys.length, ∀ f,
          O pd (pdIndex (pageAt base p)) (ptIndex (pageAt base p)) (Entry.leaf f true)) :
    (m.surfaceMap k t).2.Inv K W O := by
  unfold Machine.surfaceMap
  cases hd : (m.tasks t).pageDir with
  | none => exact h
  | some pd =>
    have hpd := mem_pds hd
    simp only []
    by_cases huse : surfaceMax ≤ k ∨ (m.surf k).inUse = false
    · rw [if_pos huse]
      exact h
    rw [if_neg huse]
    push Not at huse
    obtain ⟨hlt, huse⟩ := huse
    rw [ne_eq, Bool.not_eq_false] at huse
    split_ifs with hfull
    · exact h
    obtain ⟨hxd, hxs⟩ := (m.tasks t).reserve_same (m.surf k).phys.length
    have hshared := hok
    unfold SurfaceMapOk at hshared
    have hpage := hO pd
    generalize (m.tasks t).reserve (m.surf k).phys.length = r at hxd hxs hshared hpage
    obtain ⟨o, x⟩ := r
    cases o with
    | none => exact h.setLayout x hxd hxs
    | some base =>
      simp only []
      cases hfill : fillSlot ⟨t, base⟩ (m.surf k).map with
      | none => exact h
      | some map =>
        obtain ⟨hnew, hold, hkeep⟩ := mem_slots_of_split (fillSlot_split hfill)
        simp only []
        obtain ⟨s, hs⟩ : ∃ s : Surface, s = { m.surf k with map := map } := ⟨_, rfl⟩
        have hsphys : s.phys = (m.surf k).phys := by rw [hs]
        have hsmap : s.map = map := by rw [hs]
        -- what the slots say of the pages, once the new slot is there
        have hgrow : ∀ pd i j k', m.SlotAt pd i j k' → (m.setSurf k s).SlotAt pd i j k' := by
          intro pd i j k' hat
          by_cases hkk : k' = k
          · obtain ⟨y, hy, hyd, p, hp, hi⟩ := hat
            subst hkk
            refine ⟨y, ?_, hyd, p, ?_, hi⟩
            · rw [setSurf_self, hsmap]
              exact hkeep y hy
            · rw [setSurf_self, hsphys]
              exact hp
          · exact hat.of_ne hkk
        have hv := mapPages_spec (P := fun pd i j e => e.user = true ∧ O pd i j e
            ∧ ∀ k', e.frame ∈ (m.surf k').phys → (m.setSurf k s).SlotAt pd i j k')
          (h.vm.imp (fun pd _ i j e hp => ⟨hp.1.1, hp.2, fun k' hk' =>
            hgrow pd i j k' (hp.1.2 k' hk')⟩)) hpd (fun f hf => ⟨k, hf⟩) (hshared base rfl)
          (fun p hp f hf => ⟨rfl, hpage base hd rfl p hp f, fun k' hk' => by
            have hkk : k' = k := h.surf_inj hlt hf hk'
            subst hkk
            refine ⟨⟨t, base⟩, ?_, hd, p, ?_, rfl, rfl⟩
            · rw [setSurf_self, hsmap]
              exact hnew
            · rw [setSurf_self, hsphys]
              exact hp⟩)
        have hinv := h.toShape.setSlots hv hsphys (by rw [hs]; exact huse) hlt
          (fun y hy => by
            rw [hsmap] at hy
            rw [hsphys]
            rcases hold y hy with rfl | hy
            · exact ⟨hlive, by rw [hd]; rfl, hshared base rfl⟩
            · exact h.slots k y hy)
          (fun pd hpd i j e hp => hp)
        rw [hs] at hinv
        exact hinv.setLayout (t := t) x hxd hxs

/-! ## `surface_unmap` and `surface_destroy` -/

/-- **The pages of a mapping are removed**, and those of other address spaces stay. -/
theorem unmapPages_spec (h : vm.Inv K W S P pds L) (hpd : pd ∈ pds) (base n : ℕ)
    (hK : ∀ p < n, ¬ K.Shared (pdIndex (pageAt base p))) :
    (unmapPages pd base n vm).Inv K W S
        (fun pd' i j e => P pd' i j e ∧ ∀ p < n, ¬ Vm.Inv.At pd (pageAt base p) pd' i j) pds L
      ∧ ∀ pd' ∈ pds, pd' ≠ pd → ∀ i j e, vm.Maps pd' i j e →
        (unmapPages pd base n vm).Maps pd' i j e := by
  induction n with
  | zero =>
    exact ⟨h.imp (fun pd _ i j e hp => ⟨hp, fun p hp => absurd hp (Nat.not_lt_zero p)⟩),
      fun _ _ _ _ _ _ hm => hm⟩
  | succ n ih =>
    obtain ⟨hn, hstay⟩ := ih (fun p hp => hK p (hp.trans (Nat.lt_succ_self n)))
    obtain ⟨hinv, -, hmaps⟩ := hn.vmmUnmapPage hpd (pageAt_lt base n) (hK n (Nat.lt_succ_self n))
    have hstep : unmapPages pd base (n + 1) vm
        = (unmapPages pd base n vm).vmmUnmapPage pd (pageAt base n) := by
      unfold unmapPages
      rw [List.range_succ, List.foldl_append]
      rfl
    rw [hstep]
    refine ⟨{ hinv with maps := fun pd' hpd' i j e hm => ?_ }, fun pd' hpd' hne i j e hm =>
      (hmaps pd' hpd' i j e).2 ⟨hstay pd' hpd' hne i j e hm, fun hat => hne hat.1⟩⟩
    obtain ⟨hbefore, hnot⟩ := (hmaps pd' hpd' i j e).1 hm
    obtain ⟨hp, hall⟩ := hn.maps pd' hpd' i j e hbefore
    refine ⟨hp, fun p hlt => ?_⟩
    rcases Nat.lt_succ_iff_lt_or_eq.1 hlt with hlt | rfl
    · exact hall p hlt
    · exact hnot

/-- The slot that is taken is one of the task's. -/
theorem takeSlot_split (h : takeSlot t l = some (x, l')) :
    x.task = t ∧ ∃ a b, l' = a ++ none :: b ∧ l = a ++ some x :: b := by
  induction l generalizing l' with
  | nil => cases h
  | cons o l ih =>
    have hlater : (takeSlot t l).map (fun r => (r.1, o :: r.2)) = some (x, l') →
        x.task = t ∧ ∃ a b, l' = a ++ none :: b ∧ o :: l = a ++ some x :: b := by
      intro h
      obtain ⟨⟨x₁, l₁⟩, hl₁, heq⟩ := map_eq_some_iff.1 h
      cases heq
      obtain ⟨ht, a, b, rfl, rfl⟩ := ih hl₁
      exact ⟨ht, o :: a, b, rfl, rfl⟩
    cases o with
    | none => exact hlater h
    | some z =>
      rw [takeSlot] at h
      split_ifs at h with hz
      · cases h
        exact ⟨hz, [], l, rfl, rfl⟩
      · exact hlater h

/-- **`surface_destroy`.** -/
theorem Inv.surfaceDestroy (h : m.Inv K W O) (k t : ℕ) : (m.surfaceDestroy k t).Inv K W O := by
  unfold Machine.surfaceDestroy
  simp only []
  split_ifs with hno
  · exact h
  push Not at hno
  obtain ⟨hk, huse, -⟩ := hno
  rw [ne_eq, Bool.not_eq_false] at huse
  refine Inv.surfaceGc ?_ hk
  refine h.toShape.setSlots h.vm rfl huse hk (fun x hx => h.slots k x hx)
    (fun pd hpd i j e hp => ⟨hp.1.1, hp.2, fun k' hk' => ?_⟩)
  obtain ⟨x, hx, hd, p, hp', hi⟩ := hp.1.2 k' hk'
  by_cases hkk : k' = k
  · subst hkk
    refine ⟨x, ?_, hd, p, ?_, hi⟩
    · rw [setSurf_self]
      exact hx
    · rw [setSurf_self]
      exact hp'
  · exact SlotAt.of_ne ⟨x, hx, hd, p, hp', hi⟩ hkk

/-- **`surface_unmap`.** -/
theorem Inv.surfaceUnmap (h : m.Inv K W O) (k t : ℕ) : (m.surfaceUnmap k t).Inv K W O := by
  unfold Machine.surfaceUnmap
  simp only []
  split_ifs with hno
  · exact h
  push Not at hno
  obtain ⟨hk, huse⟩ := hno
  rw [ne_eq, Bool.not_eq_false] at huse
  cases htake : takeSlot t (m.surf k).map with
  | none => exact h.surfaceGc hk
  | some r =>
    obtain ⟨x, map⟩ := r
    obtain ⟨rfl, hsplit⟩ := takeSlot_split htake
    obtain ⟨hx, hrest, hsub⟩ := mem_slots_of_split hsplit
    obtain ⟨hlive, hsome, hshared⟩ := h.slots k x hx
    obtain ⟨pd, hd⟩ := isSome_iff_exists.1 hsome
    simp only [hd]
    obtain ⟨hv, -⟩ := unmapPages_spec h.vm (mem_pds hd) x.baseVa (m.surf k).phys.length hshared
    refine Inv.surfaceGc ?_ hk
    refine h.toShape.setSlots hv rfl huse hk (fun y hy => h.slots k y (hsub y hy))
      (fun pd' hpd' i j e hp => ⟨hp.1.1.1, hp.1.2, fun k' hk' => ?_⟩)
    obtain ⟨y, hy, hyd, p, hp', hi, hj⟩ := hp.1.1.2 k' hk'
    by_cases hkk : k' = k
    · subst hkk
      rcases hrest y hy with rfl | hy'
      · -- the page of the slot that was taken is gone
        rw [hd] at hyd
        injection hyd with hyd
        exact absurd ⟨hyd.symm, hi, hj⟩ (hp.2 p hp')
      · refine ⟨y, ?_, hyd, p, ?_, hi, hj⟩
        · rw [setSurf_self]
          exact hy'
        · rw [setSurf_self]
          exact hp'
    · exact SlotAt.of_ne ⟨y, hy, hyd, p, hp', hi, hj⟩ hkk

/-! ## `surface_release_task` -/

/-- The pages of all mappings of the task are removed, and those of other address spaces stay. -/
theorem foldl_releaseSlots {pageDir : Option ℕ} (l : List (Option MapSlot))
    (h : vm.Inv K W S P pds L) (hpd : ∀ pd, pageDir = some pd → pd ∈ pds)
    (hK : ∀ x, some x ∈ l → x.task = t → ∀ p < n, ¬ K.Shared (pdIndex (pageAt x.baseVa p))) :
    (l.foldl (releaseSlots t n pageDir) vm).Inv K W S
        (fun pd' i j e => P pd' i j e ∧ ∀ x, some x ∈ l → x.task = t → ∀ pd, pageDir = some pd →
          ∀ p < n, ¬ Vm.Inv.At pd (pageAt x.baseVa p) pd' i j) pds L
      ∧ ∀ pd' ∈ pds, pageDir ≠ some pd' → ∀ i j e, vm.Maps pd' i j e →
        (l.foldl (releaseSlots t n pageDir) vm).Maps pd' i j e := by
  induction l generalizing vm P with
  | nil =>
    exact ⟨h.imp (fun pd _ i j e hp => ⟨hp, fun x hx => absurd hx not_mem_nil⟩),
      fun _ _ _ _ _ _ hm => hm⟩
  | cons o l ih =>
    have hKl : ∀ x, some x ∈ l → x.task = t → ∀ p < n,
        ¬ K.Shared (pdIndex (pageAt x.baseVa p)) :=
      fun x hx => hK x (mem_cons_of_mem _ hx)
    -- what one turn does: the pages of this slot are gone, if it is the task's
    have hone : (releaseSlots t n pageDir vm o).Inv K W S
        (fun pd' i j e => P pd' i j e ∧ ∀ x, some x = o → x.task = t → ∀ pd, pageDir = some pd →
          ∀ p < n, ¬ Vm.Inv.At pd (pageAt x.baseVa p) pd' i j) pds L
        ∧ ∀ pd' ∈ pds, pageDir ≠ some pd' → ∀ i j e, vm.Maps pd' i j e →
          (releaseSlots t n pageDir vm o).Maps pd' i j e := by
      cases o with
      | none =>
        exact ⟨h.imp (fun pd _ i j e hp => ⟨hp, fun x hx => by cases hx⟩),
          fun _ _ _ _ _ _ hm => hm⟩
      | some z =>
        cases pageDir with
        | none =>
          exact ⟨h.imp (fun pd _ i j e hp => ⟨hp, fun x _ _ pd hd => by cases hd⟩),
            fun _ _ _ _ _ _ hm => hm⟩
        | some pd =>
          unfold releaseSlots
          simp only []
          split_ifs with hz
          · obtain ⟨hv, hstay⟩ := unmapPages_spec h (hpd pd rfl) z.baseVa n
              (hK z mem_cons_self hz)
            refine ⟨hv.imp (fun pd' _ i j e hp => ⟨hp.1, fun x hx _ pd₁ hd p hlt => ?_⟩),
              fun pd' hpd' hne => hstay pd' hpd' fun heq => hne (heq ▸ rfl)⟩
            injection hx with hx
            injection hd with hd
            subst hx hd
            exact hp.2 p hlt
          · refine ⟨h.imp (fun pd' _ i j e hp => ⟨hp, fun x hx hxt => ?_⟩), fun _ _ _ _ _ _ hm => hm⟩
            injection hx with hx
            exact absurd (hx ▸ hxt) hz
    obtain ⟨hrest, hstay⟩ := ih hone.1 hKl
    refine ⟨hrest.imp (fun pd' _ i j e hp => ⟨hp.1.1, fun x hx hxt pd hd p hlt => ?_⟩),
      fun pd' hpd' hne i j e hm => hstay pd' hpd' hne i j e (hone.2 pd' hpd' hne i j e hm)⟩
    rcases mem_cons.1 hx with hx | hx
    · exact hp.1.2 x hx hxt pd hd p hlt
    · exact hp.2 x hx hxt pd hd p hlt

/-- No surface is mapped by the task. -/
def NoMaps (m : Machine) (t : ℕ) : Prop := ∀ k x, some x ∈ (m.surf k).map → x.task ≠ t

/-- **One turn of `surface_release_task`.** -/
theorem Inv.releaseSurface (h : m.Inv K W O) (t k : ℕ) :
    (Machine.releaseSurface t m k).Inv K W O := by
  unfold Machine.releaseSurface
  by_cases huse : (m.surf k).inUse = true
  · simp only [huse, if_true]
    have hk := h.lt_of_inUse huse
    obtain ⟨hv, -⟩ := foldl_releaseSlots (m.surf k).map h.vm
      (fun pd hd => mem_pds hd) (fun x hx _ => (h.slots k x hx).2.2)
    refine Inv.surfaceGc ?_ hk
    refine h.toShape.setSlots hv rfl rfl hk (fun y hy => ?_)
      (fun pd' hpd' i j e hp => ⟨hp.1.1.1, hp.1.2, fun k' hk' => ?_⟩)
    · obtain ⟨o, ho, hoy⟩ := mem_map.1 hy
      obtain ⟨rfl, -⟩ := filter_eq_some_iff.1 hoy
      exact h.slots k y ho
    · obtain ⟨y, hy, hyd, p, hp', hi, hj⟩ := hp.1.1.2 k' hk'
      by_cases hkk : k' = k
      · subst hkk
        by_cases hyt : y.task = t
        · rw [hyt] at hyd
          exact absurd ⟨rfl, hi, hj⟩ (hp.2 y hy hyt pd' hyd p hp')
        · refine ⟨y, ?_, hyd, p, ?_, hi, hj⟩
          · rw [setSurf_self]
            exact mem_map.2 ⟨some y, hy, filter_eq_some_iff.2
              ⟨rfl, decide_eq_true hyt⟩⟩
          · rw [setSurf_self]
            exact hp'
      · exact SlotAt.of_ne ⟨y, hy, hyd, p, hp', hi, hj⟩ hkk
  · simp only [huse]
    exact h

end Machine

end Makar
