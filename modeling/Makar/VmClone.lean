import Makar.VmCalls

/-!
# Freeing and cloning address spaces

The two loops over whole address spaces. `vmm_free_pd` is a loop over the loose
references of an address space that has been cut off: it reads them from memory
that nobody else writes, in the order in which `spaceRefs` lists them.

`vmm_clone_pd_cow` builds the child's page tables one after the other, each of
them loose until it is complete. A page goes from the parent's table into the
child's with one more reference, and is copy-on-write in both from then on, so
that nobody can write to it; the count must not be at its limit, where
`pmm_inc_ref` gives up in silence. If a table cannot be had the part of the child
that exists is freed, and the parent keeps its pages, marked.
-/

namespace Makar

open List Multiset Set

namespace Vm

variable {K : Kernel} {W : Prop} {S : Set ℕ} {P : ℕ → ℕ → ℕ → Entry → Prop} {pds : Set ℕ}
  {L N : Multiset ℕ} {s t : Vm} {pd pd' pt i i' j f g c : ℕ} {e : Entry}

/-! ## References after a write elsewhere -/

theorem pageRef_congr_word (h : t.mem pt j = s.mem pt j) :
    t.pageRef S pt j = s.pageRef S pt j := by
  unfold pageRef
  rw [h]

theorem pageRef_congr (h : t.mem pt = s.mem pt) : t.pageRef S pt = s.pageRef S pt :=
  funext (fun j => pageRef_congr_word (congrFun h j))

theorem tableRefs_congr (h : t.mem pt = s.mem pt) : t.tableRefs S pt = s.tableRefs S pt := by
  unfold tableRefs
  rw [pageRef_congr h]

theorem entryRefs_congr (hk : t.kpd = s.kpd) (hd : t.mem pd i = s.mem pd i)
    (ht : s.OwnTable pd i → t.mem (s.mem pd i).frame = s.mem (s.mem pd i).frame) :
    t.entryRefs S pd i = s.entryRefs S pd i := by
  have hiff : t.OwnTable pd i ↔ s.OwnTable pd i := by
    unfold OwnTable
    rw [hk, hd]
  unfold entryRefs
  rw [hd]
  by_cases hown : s.OwnTable pd i
  · rw [if_pos hown, if_pos (hiff.2 hown), tableRefs_congr (ht hown)]
  · rw [if_neg hown, if_neg (fun hc => hown (hiff.1 hc))]

/-! ## Pages that stay -/

theorem share_share (e : Entry) : e.share.share = e.share := rfl

/-- Every page of the address spaces is still there, as it was or shared. -/
def Persists (pds : Set ℕ) (s t : Vm) : Prop :=
  ∀ pd ∈ pds, ∀ i j e, s.Maps pd i j e → t.Maps pd i j e ∨ t.Maps pd i j e.share

theorem Persists.refl (pds : Set ℕ) (s : Vm) : Persists pds s s := fun _ _ _ _ _ hm => .inl hm

theorem Persists.trans {u : Vm} (h : Persists pds s t) (h' : Persists pds t u) :
    Persists pds s u := by
  intro pd hpd i j e hm
  rcases h pd hpd i j e hm with hm | hm
  · exact h' pd hpd i j e hm
  · rcases h' pd hpd i j e.share hm with hm | hm
    · exact .inr hm
    · exact .inr (share_share e ▸ hm)

/-- The pages are read off memory. -/
theorem maps_of_mem (hmem : t.mem = s.mem) (hkpd : t.kpd = s.kpd) :
    t.Maps pd i j e ↔ s.Maps pd i j e :=
  Inv.maps_congr hkpd (congrFun hmem pd) (fun _ pt _ => congrFun hmem pt)

/-! ## `vmm_free_pd` -/

@[simp] theorem freeFrame_mem (f : ℕ) (s : Vm) : (s.freeFrame f).mem = s.mem := rfl

@[simp] theorem freeFrame_kpd (f : ℕ) (s : Vm) : (s.freeFrame f).kpd = s.kpd := rfl

theorem releaseFrame_mem (f : ℕ) (s : Vm) :
    (s.releaseFrame f).mem = s.mem ∧ (s.releaseFrame f).kpd = s.kpd := by
  unfold releaseFrame
  split_ifs <;> exact ⟨rfl, rfl⟩

theorem freeEntry_mem (pt : ℕ) (s : Vm) (j : ℕ) :
    (freeEntry pt s j).mem = s.mem ∧ (freeEntry pt s j).kpd = s.kpd := by
  unfold freeEntry
  split_ifs
  · exact releaseFrame_mem _ s
  · exact ⟨rfl, rfl⟩

theorem foldl_freeEntry_mem (pt : ℕ) (js : List ℕ) (s : Vm) :
    (js.foldl (freeEntry pt) s).mem = s.mem ∧ (js.foldl (freeEntry pt) s).kpd = s.kpd := by
  refine foldl_invariant (P := fun t : Vm => t.mem = s.mem ∧ t.kpd = s.kpd)
    (fun t j ht => ?_) js ⟨rfl, rfl⟩
  exact ⟨(freeEntry_mem pt t j).1.trans ht.1, (freeEntry_mem pt t j).2.trans ht.2⟩

theorem freeTable_mem (pd : ℕ) (s : Vm) (i : ℕ) :
    (freeTable pd s i).mem = s.mem ∧ (freeTable pd s i).kpd = s.kpd := by
  unfold freeTable
  split_ifs
  · rw [freeFrame_mem, freeFrame_kpd]
    exact foldl_freeEntry_mem (s.mem pd i).frame (range tableSize) s
  · exact ⟨rfl, rfl⟩

theorem foldl_freeTable_mem (pd : ℕ) (is : List ℕ) (s : Vm) :
    (is.foldl (freeTable pd) s).mem = s.mem ∧ (is.foldl (freeTable pd) s).kpd = s.kpd := by
  refine foldl_invariant (P := fun t : Vm => t.mem = s.mem ∧ t.kpd = s.kpd)
    (fun t i ht => ?_) is ⟨rfl, rfl⟩
  exact ⟨(freeTable_mem pd t i).1.trans ht.1, (freeTable_mem pd t i).2.trans ht.2⟩

/-- `vmm_free_pd` leaves the words of memory alone. -/
theorem vmmFreePd_mem (pd : ℕ) (s : Vm) :
    (s.vmmFreePd pd).mem = s.mem ∧ (s.vmmFreePd pd).kpd = s.kpd := by
  unfold vmmFreePd
  rw [freeFrame_mem, freeFrame_kpd]
  exact foldl_freeTable_mem pd (range tableSize) s

section FreeRule

variable {J : Vm → Multiset ℕ → Prop}

section

variable (hrel : ∀ s f N, J s (f ::ₘ N) → J (s.releaseFrame f) N)
include hrel

/-- **The inner loop** gives up the references in the entries of a table, in every
account `J` of references that is settled by releasing them. -/
theorem foldl_freeEntry_rule (js : List ℕ)
    (h : J s (((js.filterMap (s.pageRef S pt) : List ℕ) : Multiset ℕ) + N))
    (hfree : ∀ j ∈ js, (s.mem pt j).present = true → (s.mem pt j).frame ∉ S) :
    J (js.foldl (freeEntry pt) s) N := by
  induction js generalizing s with
  | nil =>
    rw [filterMap_nil, coe_nil, zero_add] at h
    exact h
  | cons j js ih =>
    have hrest : ∀ k ∈ js, (s.mem pt k).present = true → (s.mem pt k).frame ∉ S :=
      fun k hk => hfree k (mem_cons_of_mem j hk)
    rw [List.foldl_cons]
    obtain ⟨hmem, -⟩ := freeEntry_mem pt s j
    have hpage : (freeEntry pt s j).pageRef S pt = s.pageRef S pt :=
      pageRef_congr (congrFun hmem pt)
    refine ih ?_ ?_
    · rw [hpage]
      unfold freeEntry
      by_cases hp : (s.mem pt j).present = true
      · have hsome : s.pageRef S pt j = some (s.mem pt j).frame :=
          pageRef_eq_some.2 ⟨hp, rfl, hfree j mem_cons_self hp⟩
        rw [filterMap_cons_some hsome, ← cons_coe, cons_add] at h
        rw [if_pos hp]
        exact hrel _ _ _ h
      · have hnone : s.pageRef S pt j = none := by
          unfold pageRef
          rw [if_neg]
          exact fun hc => hp hc.1
        rw [filterMap_cons_none hnone] at h
        rw [if_neg hp]
        exact h
    · rw [hmem]
      exact hrest

/-- **The outer loop** gives up the references below the entries it visits. -/
theorem foldl_freeTable_rule (hall : ∀ s f N, J s (f ::ₘ N) → J (s.freeFrame f) N) (is : List ℕ)
    (h : J s ((is.map (s.entryRefs S pd)).sum + N))
    (hwalk : ∀ i ∈ is, s.OwnTable pd i → s.Walkable pd i)
    (hfree : ∀ i ∈ is, s.OwnTable pd i → ∀ j, j < tableSize →
      (s.mem (s.mem pd i).frame j).present = true → (s.mem (s.mem pd i).frame j).frame ∉ S) :
    J (is.foldl (freeTable pd) s) N := by
  induction is generalizing s with
  | nil =>
    rw [map_nil, sum_nil, zero_add] at h
    exact h
  | cons i is ih =>
    rw [List.map_cons, List.sum_cons, add_assoc] at h
    rw [List.foldl_cons]
    obtain ⟨hmem, hkpd⟩ := freeTable_mem pd s i
    have hown : ∀ k, (freeTable pd s i).OwnTable pd k ↔ s.OwnTable pd k := by
      intro k
      unfold OwnTable
      rw [hmem, hkpd]
    have hrefs : (freeTable pd s i).entryRefs S pd = s.entryRefs S pd := by
      funext k
      exact entryRefs_congr hkpd (by rw [hmem]) (fun _ => by rw [hmem])
    refine ih ?_ (fun k hk hk' => ?_) (fun k hk hk' => ?_)
    · rw [hrefs]
      unfold freeTable
      unfold entryRefs at h
      by_cases hi : s.OwnTable pd i
      · rw [if_pos hi, tableRefs, cons_add] at h
        rw [if_pos (hwalk i mem_cons_self hi)]
        refine hall _ _ _ (foldl_freeEntry_rule (S := S) hrel (range tableSize) ?_
          (fun j hj => hfree i mem_cons_self hi j (List.mem_range.1 hj)))
        rw [add_cons]
        exact h
      · rw [if_neg hi, zero_add] at h
        rw [if_neg (fun hw => hi hw.1)]
        exact h
    · have := hwalk k (mem_cons_of_mem i hk) ((hown k).1 hk')
      exact ⟨hk', hmem ▸ this.2⟩
    · rw [hmem]
      exact hfree k (mem_cons_of_mem i hk) ((hown k).1 hk')

end

end FreeRule

namespace Inv

/-- **`vmm_free_pd`** gives up every reference of the address space, which must
not map a surface. -/
theorem vmmFreePd (h : s.Inv K W S P pds L) (hpd : pd ∈ pds)
    (hfree : ∀ i j e, s.Maps pd i j e → e.frame ∉ S) :
    (s.vmmFreePd pd).Inv K W S P (pds \ {pd}) L := by
  have hcut := h.detach hpd
  have hS : ∀ f ∈ S, f ∈ L := fun f hf => (h.surface f hf).1
  unfold spaceRefs at hcut
  have hall : ∀ (s : Vm) f N, s.Inv K W S P (pds \ {pd}) (f ::ₘ N + L) →
      (s.freeFrame f).Inv K W S P (pds \ {pd}) (N + L) := by
    intro s f N hs
    rw [cons_add] at hs
    exact hs.freeFrame (hs.not_mem_surface fun g hg => mem_add.2 (.inr (hS g hg)))
  have hrel : ∀ (s : Vm) f N, s.Inv K W S P (pds \ {pd}) (f ::ₘ N + L) →
      (s.releaseFrame f).Inv K W S P (pds \ {pd}) (N + L) := by
    intro s f N hs
    have hpos := hs.covered.pos_of_mem (mem_add.2 (.inl (mem_cons_self f N)))
    rw [hs.releaseFrame_eq hpos]
    exact hall s f N hs
  have htables := foldl_freeTable_rule
    (J := fun s N => s.Inv K W S P (pds \ {pd}) (N + L)) hrel hall (range tableSize) hcut
    (fun i hi hown => (h.walkable_iff hpd (List.mem_range.1 hi)).2
      ⟨List.mem_range.1 hi, hown, rfl⟩)
    (fun i hi hown j hj hp => hfree i j _
      ⟨(s.mem pd i).frame, ⟨List.mem_range.1 hi, hown, rfl⟩, hj, rfl, hp⟩)
  have hlast := hall _ pd 0 htables
  rw [zero_add] at hlast
  exact hlast

end Inv

/-! ## `vmm_clone_pd_cow`: one table -/

/-- There is room on the counts for as many references more as the multiset
lists. -/
def Room (s : Vm) (N : Multiset ℕ) : Prop := ∀ f ∈ N, s.refs f + N.count f ≤ 0xFF

theorem Room.mono (h : s.Room N) (hL : L ≤ N) : s.Room L := by
  intro f hf
  have h₁ := h f (mem_of_le hL hf)
  have h₂ := count_le_of_le f hL
  omega

theorem Room.congr (h : s.Room N) (hr : ∀ f ∈ N, t.refs f = s.refs f) : t.Room N := by
  intro f hf
  rw [hr f hf]
  exact h f hf

/-- An address space of frames with few references can be cloned. -/
theorem Inv.room_of_refs (h : s.Inv K W S P pds L) (hpd : pd ∈ pds)
    (hle : ∀ f ∈ K.frames, s.refs f ≤ 0x7F) : s.Room (s.spaceRefs S pd) := by
  have hcut := h.detach hpd
  generalize s.spaceRefs S pd = N at hcut ⊢
  intro f hf
  have hcount := hcut.covered.count_le f
  rw [count_add] at hcount
  have hpos : 1 ≤ s.refs f :=
    (one_le_count_iff_mem.2 hf).trans ((Nat.le_add_right _ _).trans hcount)
  have hbound := hle f (h.mem_frames hpos)
  omega

/-- A reference more on the count is one less to come. -/
theorem Room.inc (h : s.Room (f ::ₘ N)) (hf : t.refs f = s.refs f + 1)
    (hg : ∀ g, g ≠ f → t.refs g = s.refs g) : t.Room N := by
  intro g hgN
  have hroom := h g (mem_cons_of_mem hgN)
  by_cases hgf : g = f
  · subst hgf
    rw [Multiset.count_cons_self] at hroom
    omega
  · rw [Multiset.count_cons_of_ne hgf] at hroom
    rw [hg g hgf]
    exact hroom

theorem Room.lt (h : s.Room (f ::ₘ N)) : s.refs f < 0xFF := by
  have := h f (mem_cons_self _ _)
  rw [Multiset.count_cons_self] at this
  omega

/-- The clone's page table `pt` for entry `i`, loose and part filled: it has the
pages copied so far, none of which can be written to. -/
structure Copying (K : Kernel) (W : Prop) (S : Set ℕ) (P : ℕ → ℕ → ℕ → Entry → Prop)
    (pds : Set ℕ) (L : Multiset ℕ) (parent c i ppt pt : ℕ) (s : Vm) : Prop where
  inv : s.Inv K W S P pds (s.tableRefs S pt + L)
  table : s.Table parent i ppt
  one : s.refs pt = 1
  entries : ∀ k, (s.mem pt k).present = true →
    P c i k (s.mem pt k) ∧ (s.mem pt k).writable = false

variable {parent ppt : ℕ}

/-- Filling an empty entry adds its reference. -/
theorem tableRefs_setWord (hj : j < tableSize) (hp : (s.mem pt j).present = false)
    (hep : e.present = true) (hS : e.frame ∉ S) :
    (s.setWord pt j e).tableRefs S pt = e.frame ::ₘ s.tableRefs S pt := by
  have hnone : s.pageRef S pt j = none := by
    unfold pageRef
    rw [if_neg]
    rintro ⟨hc, -⟩
    rw [hp] at hc
    cases hc
  have hsome : (s.setWord pt j e).pageRef S pt j = some e.frame := by
    refine pageRef_eq_some.2 ?_
    rw [setWord_mem_self]
    exact ⟨hep, rfl, hS⟩
  have hoff : ∀ k, k ≠ j → (s.setWord pt j e).pageRef S pt k = s.pageRef S pt k := by
    intro k hk
    refine pageRef_congr_word ?_
    rw [setWord_mem, if_neg (fun hc => hk hc.2)]
  unfold tableRefs
  rw [tally_update hj hnone hsome hoff, cons_swap]

/-- What the loop assumes of the pages of the parent: a page stays as it must
be when it is shared, in the parent and in the clone, and every page is a user
page and no surface's. -/
structure Cloneable (S : Set ℕ) (P : ℕ → ℕ → ℕ → Entry → Prop) (parent c : ℕ) : Prop where
  keep : ∀ i j e, P parent i j e → P parent i j e.share
  clone : ∀ i j e, P parent i j e → P c i j e.share
  user : ∀ i j e, P parent i j e → e.user = true ∧ e.frame ∉ S

theorem cloneTable_eq (ppt pt : ℕ) (s : Vm) :
    s.cloneTable ppt pt = (List.range tableSize).foldl (cloneEntry ppt pt)
      (s.setFrame pt (fun _ => Entry.zero)) := by
  unfold cloneTable
  rfl

/-- A turn of the inner loop writes to the two tables only. -/
theorem cloneEntry_mem (ppt pt : ℕ) (s : Vm) (j : ℕ) :
    (∀ g, g ≠ ppt → g ≠ pt → (cloneEntry ppt pt s j).mem g = s.mem g)
      ∧ (cloneEntry ppt pt s j).kpd = s.kpd := by
  simp only [cloneEntry]
  split_ifs
  · refine ⟨fun g hg hg' => ?_, rfl⟩
    rw [setWord_mem_of_ne hg', setWord_mem_of_ne hg]
    rfl
  · exact ⟨fun g _ hg' => setWord_mem_of_ne hg', rfl⟩
  · exact ⟨fun _ _ _ => rfl, rfl⟩

/-- A place of the parent's table that is empty is passed over. -/
theorem cloneEntry_of_absent (hp : (s.mem ppt j).present ≠ true) : cloneEntry ppt pt s j = s := by
  simp only [cloneEntry]
  rw [if_neg hp]

theorem pageRef_of_absent (hp : (s.mem ppt j).present ≠ true) : s.pageRef S ppt j = none :=
  if_neg fun hc => hp hc.1

/-- **One page goes into the clone's table.** -/
theorem Copying.cloneEntry (h : s.Copying K W S P pds L parent c i ppt pt) (hpar : parent ∈ pds)
    (hP : Cloneable S P parent c) (hj : j < tableSize) (hp : (s.mem ppt j).present = true)
    (hfresh : (s.mem pt j).present = false) (hroom : s.Room ((s.mem ppt j).frame ::ₘ N)) :
    (cloneEntry ppt pt s j).Copying K W S P pds L parent c i ppt pt
      ∧ (cloneEntry ppt pt s j).Room N := by
  have hpt : pt ∈ s.tableRefs S pt + L :=
    mem_add.2 (.inl (mem_cons_self _ _))
  have hm : s.Maps parent i j (s.mem ppt j) := ⟨ppt, h.table, hj, rfl, hp⟩
  have hPe := h.inv.maps parent hpar i j _ hm
  have huser : (s.mem ppt j).user = true := (hP.user i j _ hPe).1
  have hfS : (s.mem ppt j).frame ∉ S := (hP.user i j _ hPe).2
  have hpos := h.inv.refs_of_maps hpar hm
  have hne : pt ≠ ppt := by
    rintro rfl
    exact (h.inv.data_of_mem hpt).2 parent hpar i h.table
  have hnd : pt ∉ pds := (h.inv.data_of_mem hpt).1
  have hfpt : (s.mem ppt j).frame ≠ pt := by
    intro heq
    have hr := refers_page hpar hm hfS
    rw [heq] at hr
    exact h.inv.covered.not_mem_of_refers h.one.le hr hpt
  have hlt := hroom.lt
  -- first the parent's entry loses its write permission, then the count goes up
  have h₁ : (s.setWord ppt j (s.mem ppt j).share).Inv K W S P pds (s.tableRefs S pt + L) :=
    h.inv.reflagEntry hpar h.table hj hp rfl (fun _ => hP.keep i j _ hPe)
      (fun _ _ hw => absurd hw Bool.false_ne_true)
  have hm₁ : (s.setWord ppt j (s.mem ppt j).share).Maps parent i j (s.mem ppt j).share := by
    rw [h.inv.maps_setWord hpar h.table hj hpar, if_pos ⟨rfl, rfl, rfl⟩]
    exact ⟨rfl, hp⟩
  have hplain := h₁.plain_of_maps hpar hm₁ rfl hfS
  have h₂ := h₁.incRef hpos hlt hplain
  have hloose : pt ∈ (s.mem ppt j).frame ::ₘ (s.tableRefs S pt + L) :=
    mem_cons_of_mem hpt
  have h₃ := h₂.setWord (h.inv.mem_frames h.one.ge) (h₂.data_of_mem hloose) j
    (s.mem ppt j).share
  have heq : Vm.cloneEntry ppt pt s j
      = ((s.setWord ppt j (s.mem ppt j).share).incRef (s.mem ppt j).frame).setWord pt j
          (s.mem ppt j).share := by
    simp only [Vm.cloneEntry]
    rw [if_pos hp, if_pos huser]
    rfl
  have hrefs := h₁.refs_incRef hpos hlt
  have hshare : (s.mem ppt j).share.present = true := hp
  have hshareS : (s.mem ppt j).share.frame ∉ S := hfS
  have hmem : ((s.setWord ppt j (s.mem ppt j).share).incRef (s.mem ppt j).frame).mem pt
      = s.mem pt := setWord_mem_of_ne hne
  have htab : (Vm.cloneEntry ppt pt s j).tableRefs S pt
      = (s.mem ppt j).frame ::ₘ s.tableRefs S pt := by
    rw [heq, tableRefs_setWord hj (by rw [hmem]; exact hfresh) hshare hshareS,
      tableRefs_congr hmem]
    rfl
  refine ⟨⟨?_, ?_, ?_, ?_⟩, ?_⟩
  · rw [htab, cons_add, heq]
    exact h₃
  · obtain ⟨hframe, hkpd⟩ := cloneEntry_mem ppt pt s j
    have hpp : parent ≠ ppt := fun hc => h.inv.table_not_dir hpar h.table (hc ▸ hpar)
    have hpc : parent ≠ pt := fun hc => hnd (hc ▸ hpar)
    exact (Inv.table_congr hkpd (hframe parent hpp hpc)).2 h.table
  · rw [heq]
    show ((s.setWord ppt j (s.mem ppt j).share).incRef (s.mem ppt j).frame).refs pt = 1
    rw [hrefs, if_neg (Ne.symm hfpt)]
    exact h.one
  · intro k hk
    rw [heq] at hk ⊢
    rw [setWord_mem] at hk ⊢
    by_cases hkj : k = j
    · rw [if_pos ⟨rfl, hkj⟩]
      rw [hkj]
      exact ⟨hP.clone i j _ hPe, rfl⟩
    · rw [if_neg (fun hc => hkj hc.2), hmem] at hk ⊢
      exact h.entries k hk
  · refine hroom.inc ?_ (fun g hg => ?_)
    · rw [heq]
      exact (hrefs _).trans (if_pos rfl)
    · rw [heq]
      exact (hrefs g).trans (if_neg hg)

/-- The inner loop writes to the two tables only. -/
theorem cloneTable_mem (ppt pt : ℕ) (s : Vm) :
    (∀ g, g ≠ ppt → g ≠ pt → (s.cloneTable ppt pt).mem g = s.mem g)
      ∧ (s.cloneTable ppt pt).kpd = s.kpd := by
  rw [cloneTable_eq]
  refine foldl_invariant (P := fun t : Vm => (∀ g, g ≠ ppt → g ≠ pt → t.mem g = s.mem g)
    ∧ t.kpd = s.kpd) (fun t j ht => ?_) _ ⟨fun g _ hg => setFrame_mem_of_ne hg, rfl⟩
  obtain ⟨hmem, hkpd⟩ := cloneEntry_mem ppt pt t j
  exact ⟨fun g hg hg' => (hmem g hg hg').trans (ht.1 g hg hg'), hkpd.trans ht.2⟩

section

variable (hne : pt ≠ ppt)
include hne

/-- The places of the clone's table that are still to come are left alone. -/
theorem cloneEntry_mem_table {k : ℕ} (hk : k ≠ j) :
    (cloneEntry ppt pt s j).mem pt k = s.mem pt k := by
  simp only [cloneEntry]
  split_ifs
  · rw [setWord_mem, if_neg (fun hc => hk hc.2), setWord_mem_of_ne hne]
    rfl
  · rw [setWord_mem, if_neg (fun hc => hk hc.2)]
  · rfl

/-- What a turn of the inner loop does to the parent's table. -/
theorem cloneEntry_mem_parent (k : ℕ) :
    (cloneEntry ppt pt s j).mem ppt k = s.mem ppt k
      ∨ (cloneEntry ppt pt s j).mem ppt k = (s.mem ppt k).share := by
  simp only [cloneEntry]
  split_ifs
  · rw [setWord_mem_of_ne (Ne.symm hne), setWord_mem]
    split_ifs with hk
    · exact .inr (hk.2 ▸ rfl)
    · exact .inl rfl
  · exact .inl (congrFun (setWord_mem_of_ne (Ne.symm hne)) k)
  · exact .inl rfl

/-- The parent's table keeps its pages. -/
theorem pageRef_cloneEntry : (cloneEntry ppt pt s j).pageRef S ppt = s.pageRef S ppt := by
  funext k
  unfold pageRef
  rcases cloneEntry_mem_parent (s := s) (j := j) hne k with heq | heq <;> rw [heq]
  rfl

/-- What the inner loop does to the parent's table. -/
theorem cloneTable_parent (s : Vm) (k : ℕ) : (s.cloneTable ppt pt).mem ppt k = s.mem ppt k
      ∨ (s.cloneTable ppt pt).mem ppt k = (s.mem ppt k).share := by
  rw [cloneTable_eq]
  refine foldl_invariant (P := fun t : Vm => t.mem ppt k = s.mem ppt k
    ∨ t.mem ppt k = (s.mem ppt k).share) (fun t j ht => ?_) _
    (.inl (congrFun (setFrame_mem_of_ne hne.symm) k))
  rcases cloneEntry_mem_parent (s := t) (j := j) hne k with heq | heq
  · rw [heq]
    exact ht
  · rw [heq]
    rcases ht with ht | ht
    · rw [ht]
      exact .inr rfl
    · rw [ht]
      exact .inr rfl

/-- **The user pages the inner loop has visited are in the clone's table**, shared. -/
theorem foldl_cloneEntry_clone (js : List ℕ) (s : Vm) {k : ℕ} (hk : k ∈ js)
    (hp : (s.mem ppt k).present = true) (hu : (s.mem ppt k).user = true) :
    (js.foldl (Vm.cloneEntry ppt pt) s).mem pt k = (s.mem ppt k).share := by
  induction js generalizing s with
  | nil => cases hk
  | cons j js ih =>
    rw [List.foldl_cons]
    by_cases hkjs : k ∈ js
    · -- it is visited again, and sharing it twice is sharing it
      rcases cloneEntry_mem_parent (s := s) (j := j) hne k with heq | heq
      · rw [ih _ hkjs (by rw [heq]; exact hp) (by rw [heq]; exact hu), heq]
      · rw [ih _ hkjs (by rw [heq]; exact hp) (by rw [heq]; exact hu), heq, share_share]
    · obtain rfl : k = j := (mem_cons.1 hk).resolve_right hkjs
      have hrest : ∀ t : Vm, (js.foldl (Vm.cloneEntry ppt pt) t).mem pt k = t.mem pt k :=
        fun t => foldl_invariant_mem (P := fun u : Vm => u.mem pt k = t.mem pt k) js
          (fun u j hj hu => (cloneEntry_mem_table hne (by rintro rfl; exact hkjs hj)).trans hu) rfl
      rw [hrest]
      simp only [Vm.cloneEntry, hp, hu, if_true]
      exact setWord_mem_self _ _ _ _

theorem cloneTable_clone (s : Vm) {k : ℕ} (hk : k < tableSize)
    (hp : (s.mem ppt k).present = true) (hu : (s.mem ppt k).user = true) :
    (s.cloneTable ppt pt).mem pt k = (s.mem ppt k).share := by
  have hstart : (s.setFrame pt (fun _ => Entry.zero)).mem ppt = s.mem ppt := setFrame_mem_of_ne hne.symm
  rw [← hstart] at hp hu ⊢
  rw [cloneTable_eq]
  exact foldl_cloneEntry_clone hne _ _ (List.mem_range.2 hk) hp hu

end

/-- **The inner loop fills the clone's table.** -/
theorem Copying.foldl_cloneEntry (js : List ℕ) (h : s.Copying K W S P pds L parent c i ppt pt)
    (hpar : parent ∈ pds) (hP : Cloneable S P parent c) (hne : pt ≠ ppt) (hnd : js.Nodup)
    (hjs : ∀ j ∈ js, j < tableSize) (hfresh : ∀ j ∈ js, (s.mem pt j).present = false)
    (hroom : s.Room (((js.filterMap (s.pageRef S ppt) : List ℕ) : Multiset ℕ) + N)) :
    (js.foldl (Vm.cloneEntry ppt pt) s).Copying K W S P pds L parent c i ppt pt
      ∧ (js.foldl (Vm.cloneEntry ppt pt) s).Room N := by
  induction js generalizing s with
  | nil =>
    rw [filterMap_nil, coe_nil, zero_add] at hroom
    exact ⟨h, hroom⟩
  | cons j js ih =>
    rw [List.foldl_cons]
    obtain ⟨hj, hnd⟩ := nodup_cons.1 hnd
    have hlt := hjs j mem_cons_self
    have hrest : ∀ k ∈ js, k < tableSize := fun k hk => hjs k (mem_cons_of_mem j hk)
    have hfresh' : ∀ k ∈ js, ((Vm.cloneEntry ppt pt s j).mem pt k).present = false := by
      intro k hk
      have hkj : k ≠ j := fun heq => hj (heq ▸ hk)
      rw [cloneEntry_mem_table hne hkj]
      exact hfresh k (mem_cons_of_mem j hk)
    have hstep : (Vm.cloneEntry ppt pt s j).Copying K W S P pds L parent c i ppt pt
        ∧ (Vm.cloneEntry ppt pt s j).Room
          (((js.filterMap ((Vm.cloneEntry ppt pt s j).pageRef S ppt) : List ℕ) : Multiset ℕ)
            + N) := by
      by_cases hp : (s.mem ppt j).present = true
      · have hm : s.Maps parent i j (s.mem ppt j) := ⟨ppt, h.table, hlt, rfl, hp⟩
        have hfS := (hP.user i j _ (h.inv.maps parent hpar i j _ hm)).2
        rw [filterMap_cons_some (pageRef_eq_some.2 ⟨hp, rfl, hfS⟩), ← cons_coe,
          cons_add] at hroom
        rw [pageRef_cloneEntry hne]
        exact h.cloneEntry hpar hP hlt hp (hfresh j mem_cons_self) hroom
      · rw [filterMap_cons_none (pageRef_of_absent hp)] at hroom
        rw [cloneEntry_of_absent hp]
        exact ⟨h, hroom⟩
    exact ih hstep.1 hnd hrest hfresh' hstep.2

/-- The inner loop, from a table of zeros. -/
theorem Copying.cloneTable
    (h : (s.setFrame pt (fun _ => Entry.zero)).Copying K W S P pds L parent c i ppt pt)
    (hpar : parent ∈ pds) (hP : Cloneable S P parent c) (hne : pt ≠ ppt)
    (hroom : (s.setFrame pt (fun _ => Entry.zero)).Room
      (tally ((s.setFrame pt (fun _ => Entry.zero)).pageRef S ppt) tableSize + N)) :
    (s.cloneTable ppt pt).Copying K W S P pds L parent c i ppt pt
      ∧ (s.cloneTable ppt pt).Room N := by
  rw [tally] at hroom
  rw [cloneTable_eq]
  exact h.foldl_cloneEntry (range tableSize) hpar hP hne nodup_range
    (fun j hj => List.mem_range.1 hj) (fun j _ => setFrame_zero j) hroom

/-! ## `vmm_clone_pd_cow`: all tables -/

namespace Inv

/-- A reference below an entry of a directory is counted. -/
theorem refs_of_mem_entryRefs (h : s.Inv K W S P pds L) (hpd : pd ∈ pds) (hi : i < tableSize)
    (hf : f ∈ s.entryRefs S pd i) : 1 ≤ s.refs f := by
  unfold entryRefs at hf
  split_ifs at hf with hown
  · have hT : s.Table pd i (s.mem pd i).frame := ⟨hi, hown, rfl⟩
    have hcount : (1 : ℕ∞) ≤ (s.column S pd i (s.mem pd i).frame f).encard := by
      rw [encard_column]
      exact_mod_cast one_le_count_iff_mem.2 hf
    obtain ⟨o, ho⟩ := one_le_encard_iff_nonempty.1 hcount
    exact h.covered.pos_of_refers (refers_of_mem_column hpd hT ho)
  · exact absurd hf (notMem_zero f)

theorem refs_of_mem_sum (h : s.Inv K W S P pds L) (hpd : pd ∈ pds) (is : List ℕ)
    (his : ∀ i ∈ is, i < tableSize) :
    ∀ f ∈ (is.map (s.entryRefs S pd)).sum, 1 ≤ s.refs f := by
  intro f hf
  obtain ⟨i, hi, hfi⟩ := exists_mem_of_mem_sum hf
  exact h.refs_of_mem_entryRefs hpd (his i hi) hfi

/-- **A table of the parent goes into the clone**: the new table is filled and
hung into the clone's directory. -/
theorem cloneTable {u : Vm} (h : s.Inv K W S P pds L) (hpar : parent ∈ pds) (hc : c ∈ pds)
    (hP : Cloneable S P parent c) (hT : s.Table parent i ppt) (hcopy : s.mem c i = K.dir i)
    (ha : Alloc s t pt) (ht : t.Inv K W S P pds (pt ::ₘ L))
    (hroom : s.Room (s.entryRefs S parent i + N)) (hN : ∀ f ∈ N, 1 ≤ s.refs f)
    (hu : u = (t.cloneTable ppt pt).setWord c i { s.mem parent i with frame := pt }) :
    u.Inv K W S P pds L ∧ u.Room N ∧ (∀ g, g ≠ ppt → g ≠ pt → g ≠ c → u.mem g = s.mem g)
      ∧ (∀ k, k ≠ i → u.mem c k = s.mem c k) ∧ u.kpd = s.kpd
      ∧ Persists pds s u ∧ ∀ j e, s.Maps parent i j e → u.Maps c i j e.share := by
  have hloose := mem_cons_self pt L
  have hdata := ht.data_of_mem hloose
  have hfill := ht.setFrame (ht.mem_frames ha.one.ge) hdata (fun _ => Entry.zero)
  have hmem₀ : ∀ g, g ≠ pt → (t.setFrame pt (fun _ => Entry.zero)).mem g = s.mem g := by
    intro g hg
    rw [setFrame_mem_of_ne hg, ha.mem]
  have hparpt : parent ≠ pt := fun heq => hdata.1 (heq ▸ hpar)
  have hcpt : c ≠ pt := fun heq => hdata.1 (heq ▸ hc)
  have hcppt : c ≠ ppt := fun heq => h.table_not_dir hpar hT (heq ▸ hc)
  have hTt : t.Table parent i ppt :=
    (Inv.table_congr ha.kpd (congrFun ha.mem parent)).2 hT
  have hne : pt ≠ ppt := by
    rintro rfl
    exact hdata.2 parent hpar i hTt
  have hcopying : (t.setFrame pt (fun _ => Entry.zero)).Copying K W S P pds L parent c i ppt pt := by
    refine ⟨?_, ?_, ha.one, fun k hk => ?_⟩
    · rw [tableRefs_zero setFrame_zero]
      exact hfill
    · have hkpd : (t.setFrame pt (fun _ => Entry.zero)).kpd = s.kpd := ha.kpd
      exact (Inv.table_congr hkpd (hmem₀ parent hparpt)).2 hT
    · rw [setFrame_zero] at hk
      cases hk
  have hroom₀ : (t.setFrame pt (fun _ => Entry.zero)).Room
      (tally ((t.setFrame pt (fun _ => Entry.zero)).pageRef S ppt) tableSize + N) := by
    have hpage : (t.setFrame pt (fun _ => Entry.zero)).pageRef S ppt = s.pageRef S ppt :=
      pageRef_congr (hmem₀ ppt (Ne.symm hne))
    have hentry : s.entryRefs S parent i = ppt ::ₘ tally (s.pageRef S ppt) tableSize := by
      unfold entryRefs
      rw [if_pos hT.2.1, hT.2.2, tableRefs]
    rw [hpage]
    have hle : tally (s.pageRef S ppt) tableSize + N ≤ s.entryRefs S parent i + N := by
      rw [hentry]
      exact add_le_add (le_cons_self _ _) le_rfl
    refine (hroom.mono hle).congr (fun f hf => ?_)
    refine ha.keepsRefs f ?_
    rcases mem_add.1 hf with hf | hf
    · refine h.refs_of_mem_entryRefs hpar hT.1 ?_
      rw [hentry]
      exact mem_cons_of_mem hf
    · exact hN f hf
  have hloop := hcopying.cloneTable hpar hP hne hroom₀
  have hold := cloneTable_parent hne t
  have hnew := fun k => cloneTable_clone hne t (k := k)
  rw [ha.mem] at hold hnew
  obtain ⟨hmem, hkpd⟩ := cloneTable_mem ppt pt t
  obtain ⟨v, hv⟩ : ∃ v, v = t.cloneTable ppt pt := ⟨_, rfl⟩
  rw [← hv] at hloop hu hold hnew hmem hkpd
  obtain ⟨hcp, hr⟩ := hloop
  have hcdir : v.mem c = s.mem c := (hmem c hcppt hcpt).trans (congrFun ha.mem c)
  have hzero' : K.dir i = Entry.zero := by
    rcases h.shape parent hpar i hT.1 with heq | ⟨hz, -⟩
    · exact absurd (by rw [heq, h.kpd]) hT.2.1.2.2
    · exact hz
  have hempty : (v.mem c i).present = false := by
    rw [hcdir, hcopy, hzero']
    rfl
  have hpt0 : pt ≠ 0 := fun heq => K.zero_not_mem (heq ▸ ht.mem_frames ha.one.ge)
  subst hu
  refine ⟨?_, hr.congr (fun f _ => by rw [setWord_refs]), fun g hg hg' hgc => ?_, fun k hk => ?_,
    hkpd.trans ha.kpd, fun pd' hpd' i' j' e hm => ?_, fun j e hm => ?_⟩
  · exact hcp.inv.attachTable hcp.one (fun f hf => (h.surface f hf).1) hc hT.1 hempty rfl
      hT.2.1.1 hT.2.1.2.1 (fun j _ hj => (hcp.entries j hj).1)
      (fun _ j _ hj hwr => absurd hwr (by rw [(hcp.entries j hj).2]; exact Bool.false_ne_true))
  · rw [setWord_mem_of_ne hgc]
    exact (hmem g hg hg').trans (congrFun ha.mem g)
  · rw [setWord_mem, if_neg (fun hc => hk hc.2), hcdir]
  · obtain ⟨pt', hT', hj', he, hp⟩ := hm
    -- the entry of the directory is another one, the table none of the new frames
    have hdir : (v.setWord c i { s.mem parent i with frame := pt }).mem pd' i' = s.mem pd' i' := by
      have hpd'pt : pd' ≠ pt := fun heq => hdata.1 (heq ▸ hpd')
      have hpd'ppt : pd' ≠ ppt := fun heq => h.table_not_dir hpar hT (heq ▸ hpd')
      rw [setWord_mem, if_neg]
      · rw [hmem pd' hpd'ppt hpd'pt, ha.mem]
      · rintro ⟨rfl, rfl⟩
        refine hT'.2.1.2.2 ?_
        rw [hcopy, h.kpd]
    have hTu : (v.setWord c i { s.mem parent i with frame := pt }).Table pd' i' pt' := by
      refine ⟨hT'.1, ?_, by rw [hdir]; exact hT'.2.2⟩
      unfold OwnTable
      rw [hdir, setWord_kpd, hkpd.trans ha.kpd]
      exact hT'.2.1
    have hpt'c : pt' ≠ c := fun heq => h.table_not_dir hpd' hT' (heq ▸ hc)
    have hpt'pt : pt' ≠ pt := by
      rintro rfl
      exact hdata.2 pd' hpd' i' ((Inv.table_congr ha.kpd (congrFun ha.mem pd')).2 hT')
    have hword : v.mem pt' j' = e ∨ v.mem pt' j' = e.share := by
      by_cases hpp : pt' = ppt
      · rw [hpp] at he ⊢
        rw [← he]
        exact hold j'
      · left
        rw [hmem pt' hpp hpt'pt, ha.mem, he]
    rcases hword with hword | hword
    · refine .inl ⟨pt', hTu, hj', ?_, hp⟩
      rw [setWord_mem_of_ne hpt'c, hword]
    · refine .inr ⟨pt', hTu, hj', ?_, hp⟩
      rw [setWord_mem_of_ne hpt'c, hword]
  · have huser := (hP.user i j e (h.maps parent hpar i j e hm)).1
    obtain ⟨ppt', hT', hj, he, hp⟩ := hm
    obtain rfl : ppt' = ppt := hT'.2.2.symm.trans hT.2.2
    refine ⟨pt, ⟨hT.1, ⟨?_, ?_, ?_⟩, ?_⟩, hj, ?_, hp⟩
    · rw [setWord_mem_self]
      exact hT.2.1.1
    · rw [setWord_mem_self]
      exact hT.2.1.2.1
    · rw [setWord_mem_self, setWord_kpd, hkpd.trans ha.kpd, h.kpd, hzero']
      exact hpt0
    · rw [setWord_mem_self]
    · rw [setWord_mem_of_ne (Ne.symm hcpt), ← he]
      exact hnew j hj (by rw [he]; exact hp) (by rw [he]; exact huser)

/-- **The outer loop of `vmm_clone_pd_cow`**, over entries of which the clone
still has the kernel's: the address spaces keep their pages, and when the loop comes to
its end the clone has those of the parent, shared. -/
theorem cloneTables (is : List ℕ) (h : s.Inv K W S P pds L) (hpar : parent ∈ pds) (hc : c ∈ pds)
    (hpc : parent ≠ c) (hP : Cloneable S P parent c) (hnd : is.Nodup)
    (his : ∀ i ∈ is, i < tableSize) (hcopy : ∀ i ∈ is, s.mem c i = K.dir i)
    (hroom : s.Room (is.map (s.entryRefs S parent)).sum) :
    (Vm.cloneTables parent c is s).2.Inv K W S P pds L
      ∧ Persists pds s (Vm.cloneTables parent c is s).2
      ∧ ((Vm.cloneTables parent c is s).1 = true → ∀ i ∈ is, ∀ j e, s.Maps parent i j e →
        (Vm.cloneTables parent c is s).2.Maps c i j e.share) := by
  induction is generalizing s with
  | nil => exact ⟨h, Persists.refl pds s, fun _ i hi => absurd hi not_mem_nil⟩
  | cons i is ih =>
    obtain ⟨hi, hnd⟩ := nodup_cons.1 hnd
    have hlt := his i mem_cons_self
    have his' : ∀ k ∈ is, k < tableSize := fun k hk => his k (mem_cons_of_mem i hk)
    rw [List.map_cons, List.sum_cons] at hroom
    simp only [Vm.cloneTables]
    split_ifs with hw
    · have hT : s.Table parent i (s.mem parent i).frame := ⟨hlt, hw.1, rfl⟩
      rcases h.allocFrame with heq | ⟨pt, t, heq, ha, ht⟩
      · rw [heq]
        exact ⟨h, Persists.refl pds s, fun hb => by cases hb⟩
      · rw [heq]
        have hN := h.refs_of_mem_sum hpar is his'
        obtain ⟨hinv, hr, hmem, hdir, hkpd, hstay, hclone⟩ := h.cloneTable hpar hc hP hT
          (hcopy i mem_cons_self) ha ht hroom hN rfl
        have hloose := (ht.data_of_mem (mem_cons_self pt L))
        have hparpt : parent ≠ pt := fun heq => hloose.1 (heq ▸ hpar)
        have hparppt : parent ≠ (s.mem parent i).frame := fun heq =>
          h.table_not_dir hpar hT (heq ▸ hpar)
        have hrefs : ∀ k ∈ is, ((t.cloneTable (s.mem parent i).frame pt).setWord c i
            { s.mem parent i with frame := pt }).entryRefs S parent k
              = s.entryRefs S parent k := by
          intro k hk
          refine entryRefs_congr hkpd (congrFun (hmem parent hparppt hparpt hpc) k)
            (fun hown => ?_)
          have hTk : s.Table parent k (s.mem parent k).frame := ⟨his' k hk, hown, rfl⟩
          refine hmem _ (fun heq => ?_) (fun heq => ?_) (fun heq => ?_)
          · rw [heq] at hTk
            exact hi ((h.table_inj hpar hpar hTk hT).2 ▸ hk)
          · refine hloose.2 parent hpar k ?_
            rw [heq] at hTk
            exact (Inv.table_congr ha.kpd (congrFun ha.mem parent)).2 hTk
          · rw [heq] at hTk
            exact h.table_not_dir hpar hTk hc
        obtain ⟨hfin, hstay', hclone'⟩ := ih hinv hnd his' (fun k hk => by
          have hki : k ≠ i := fun heq => hi (heq ▸ hk)
          rw [hdir k hki]
          exact hcopy k (mem_cons_of_mem i hk)) (by
          rw [map_congr_left hrefs]
          exact hr)
        refine ⟨hfin, hstay.trans hstay', fun hb k hk j e hm => ?_⟩
        rcases mem_cons.1 hk with rfl | hk
        · rcases hstay' c hc k j e.share (hclone j e hm) with hm' | hm'
          · exact hm'
          · exact share_share e ▸ hm'
        · rcases hstay parent hpar k j e hm with hm' | hm'
          · exact hclone' hb k hk j e hm'
          · exact share_share e ▸ hclone' hb k hk j e.share hm'
    · obtain ⟨hfin, hstay, hclone⟩ := ih h hnd his'
        (fun k hk => hcopy k (mem_cons_of_mem i hk)) (hroom.mono (le_add_left _ _))
      refine ⟨hfin, hstay, fun hb k hk j e hm => ?_⟩
      rcases mem_cons.1 hk with rfl | hk
      · obtain ⟨ppt, hT, -⟩ := hm
        exact absurd ((h.walkable_iff hpar hlt).2 ⟨hlt, hT.2.1, rfl⟩) hw
      · exact hclone hb k hk j e hm

/-- **`vmm_clone_pd_cow`** makes a clone of an address space of user pages that
maps no surface, or leaves the address spaces there were. -/
theorem vmmClonePdCow (h : s.Inv K W S P pds L) (hpar : parent ∈ pds)
    (hP : ∀ c, c ∉ pds → Cloneable S P parent c) (hroom : s.Room (s.spaceRefs S parent)) :
    (∃ t, s.vmmClonePdCow parent = (none, t) ∧ t.Inv K W S P pds L ∧ Persists pds s t)
      ∨ ∃ c t, s.vmmClonePdCow parent = (some c, t) ∧ c ∉ pds
        ∧ t.Inv K W S P (insert c pds) L ∧ Persists pds s t
        ∧ ∀ i j e, s.Maps parent i j e → t.Maps c i j e.share := by
  -- pages outside the old address spaces, which are the clone's, are no surface's
  have h₂ : s.Inv K W S (fun pd i j e => P pd i j e ∧ (pd ∉ pds → e.frame ∉ S)) pds L :=
    h.imp (fun pd hpd i j e hp => ⟨hp, fun hn => absurd hpd hn⟩)
  unfold Vm.vmmClonePdCow
  rcases h₂.vmmCreatePd with heq | ⟨c, t, heq, hc, hkeep, ht, hcopy, hmem⟩
  · left
    rw [heq]
    exact ⟨s, rfl, h, Persists.refl pds s⟩
  rw [heq]
  have hpc : parent ≠ c := fun hpc => hc (hpc ▸ hpar)
  have hkpd : t.kpd = s.kpd := ht.kpd.trans h.kpd.symm
  have hclone : Cloneable S (fun pd i j e => P pd i j e ∧ (pd ∉ pds → e.frame ∉ S)) parent c := by
    refine ⟨fun i j e hp => ⟨(hP c hc).keep i j e hp.1, hp.2⟩, fun i j e hp => ?_,
      fun i j e hp => (hP c hc).user i j e hp.1⟩
    exact ⟨(hP c hc).clone i j e hp.1, fun _ => ((hP c hc).user i j e hp.1).2⟩
  have hmaps : ∀ pd ∈ pds, ∀ i j e, s.Maps pd i j e → t.Maps pd i j e := by
    intro pd hpd i j e hm
    have hpdc : pd ≠ c := fun heqc => hc (heqc ▸ hpd)
    refine (Inv.maps_congr hkpd (hmem pd hpdc) (fun i' pt hT => hmem pt ?_)).2 hm
    rintro rfl
    exact ht.table_not_dir (mem_insert_of_mem pt hpd)
      ((Inv.table_congr hkpd (hmem pd hpdc)).2 hT) (mem_insert pt pds)
  have hentry : ∀ i ∈ List.range tableSize, t.entryRefs S parent i = s.entryRefs S parent i := by
    intro i hi
    refine entryRefs_congr hkpd (congrFun (hmem parent hpc) i) (fun hown => hmem _ ?_)
    intro heqc
    have hT : t.Table parent i c := by
      refine (Inv.table_congr hkpd (hmem parent hpc)).2 ⟨List.mem_range.1 hi, hown, heqc⟩
    exact ht.table_not_dir (mem_insert_of_mem c hpar) hT (mem_insert c pds)
  have hroom' : t.Room ((List.range tableSize).map (t.entryRefs S parent)).sum := by
    rw [spaceRefs] at hroom
    rw [map_congr_left hentry]
    have hpos := h.refs_of_mem_sum hpar (List.range tableSize) (fun i hi => List.mem_range.1 hi)
    have hsum := hroom.mono (le_add_right _ {parent})
    revert hpos hsum
    generalize ((List.range tableSize).map (s.entryRefs S parent)).sum = N
    exact fun hpos hsum => hsum.congr (fun f hf => hkeep f (hpos f hf))
  obtain ⟨hall, hstay, hcopied⟩ := ht.cloneTables (List.range tableSize) (mem_insert_of_mem c hpar)
    (mem_insert c pds) hpc hclone List.nodup_range (fun i hi => List.mem_range.1 hi)
    (fun i _ => hcopy i) hroom'
  obtain ⟨r, hr⟩ : ∃ r, r = Vm.cloneTables parent c (List.range tableSize) t := ⟨_, rfl⟩
  rw [← hr] at hall hstay hcopied
  simp only [← hr]
  obtain ⟨b, u⟩ := r
  have hkept : Persists pds s u := fun pd hpd i j e hm =>
    hstay pd (mem_insert_of_mem c hpd) i j e (hmaps pd hpd i j e hm)
  cases b with
  | true =>
    right
    refine ⟨c, u, rfl, hc, hall.imp (fun pd _ i j e hp => hp.1), hkept, fun i j e hm => ?_⟩
    have hi : i ∈ List.range tableSize := List.mem_range.2 hm.choose_spec.1.1
    exact hcopied rfl i hi j e (hmaps parent hpar i j e hm)
  | false =>
    left
    refine ⟨_, rfl, ?_, fun pd hpd i j e hm => ?_⟩
    swap
    · obtain ⟨hfmem, hfkpd⟩ := vmmFreePd_mem c u
      rw [maps_of_mem hfmem hfkpd, maps_of_mem hfmem hfkpd]
      exact hkept pd hpd i j e hm
    have hfree := hall.vmmFreePd (mem_insert c pds)
      (fun i j e hm => (hall.maps c (mem_insert c pds) i j e hm).2 hc)
    rw [insert_sdiff_self_of_notMem hc] at hfree
    exact hfree.imp (fun pd _ i j e hp => hp.1)

end Inv

end Vm

end Makar
