import Makar.VmInv

/-!
# Growing and felling address spaces

A page table with all its entries is built, or torn down, while no directory
points at it, and its references are loose meanwhile. `attachTable` hangs such a
table into a directory in one move, `attachDir` adds a directory without tables,
and `detach` cuts a whole address space off, all its references coming loose. The
loops that build and free address spaces are then loops over loose references.
-/

namespace Makar

open List Multiset Nat Set

namespace Vm

open Classical in
/-- The reference in an entry of a table. -/
noncomputable def pageRef (S : Set ℕ) (s : Vm) (pt j : ℕ) : Option ℕ :=
  if (s.mem pt j).present = true ∧ (s.mem pt j).frame ∉ S then some (s.mem pt j).frame else none

/-- The reference to a table and those in its entries. -/
noncomputable def tableRefs (S : Set ℕ) (s : Vm) (pt : ℕ) : Multiset ℕ :=
  pt ::ₘ tally (s.pageRef S pt) tableSize

/-- The references below an entry of a directory. -/
noncomputable def entryRefs (S : Set ℕ) (s : Vm) (pd i : ℕ) : Multiset ℕ :=
  if s.OwnTable pd i then s.tableRefs S (s.mem pd i).frame else 0

/-- The references of an address space, as `vmm_free_pd` meets them. -/
noncomputable def spaceRefs (S : Set ℕ) (s : Vm) (pd : ℕ) : Multiset ℕ :=
  ((List.range tableSize).map (s.entryRefs S pd)).sum + {pd}

variable {K : Kernel} {W : Prop} {S : Set ℕ} {P : ℕ → ℕ → ℕ → Entry → Prop} {pds : Set ℕ}
  {L N : Multiset ℕ} {s : Vm} {pd pd' pt i i' j f g n : ℕ} {e e₀ : Entry}

theorem pageRef_eq_some :
    s.pageRef S pt j = some f
      ↔ (s.mem pt j).present = true ∧ (s.mem pt j).frame = f ∧ f ∉ S := by
  unfold pageRef
  constructor
  · intro h
    split_ifs at h with hc
    injection h with hf
    exact ⟨hc.1, hf, hf ▸ hc.2⟩
  · rintro ⟨hp, rfl, hS⟩
    rw [if_pos ⟨hp, hS⟩]

/-- The places below an entry of a directory that refer to a frame, when the
entry points at the table `pt`. -/
def column (S : Set ℕ) (s : Vm) (pd i pt f : ℕ) : Set Holder :=
  {o | o = .table pd i ∧ pt = f}
    ∪ Holder.page pd i '' {j | j < tableSize ∧ s.pageRef S pt j = some f}

/-- Those places are as many as the references. -/
theorem encard_column (S : Set ℕ) (s : Vm) (pd i pt f : ℕ) :
    (s.column S pd i pt f).encard = ((s.tableRefs S pt).count f : ℕ∞) := by
  have hinj : Function.Injective (Holder.page pd i) := by
    intro a b hab
    injection hab
  have hdisj : Disjoint {o : Holder | o = .table pd i ∧ pt = f}
      (Holder.page pd i '' {j | j < tableSize ∧ s.pageRef S pt j = some f}) := by
    rw [Set.disjoint_left]
    rintro o ⟨rfl, -⟩ ⟨j, -, hj⟩
    cases hj
  unfold column tableRefs
  rw [encard_union_eq hdisj, hinj.encard_image, encard_places, add_comm]
  by_cases hf : pt = f
  · subst hf
    have hone : {o : Holder | o = .table pd i ∧ pt = pt} = {.table pd i} := by
      ext o
      simp
    rw [hone, encard_singleton, Multiset.count_cons_self, cast_add, cast_one]
  · have hnone : {o : Holder | o = .table pd i ∧ pt = f} = ∅ :=
      eq_empty_of_forall_notMem (fun o ho => hf ho.2)
    rw [hnone, encard_empty, add_zero, Multiset.count_cons_of_ne (Ne.symm hf)]

/-- The places of a column refer to the frame. -/
theorem refers_of_mem_column (hpd : pd ∈ pds) (ht : s.Table pd i pt) {o : Holder}
    (ho : o ∈ s.column S pd i pt f) : s.Refers S pds o f := by
  rcases ho with ⟨rfl, rfl⟩ | ⟨j, ⟨hj, hr⟩, rfl⟩
  · exact ⟨hpd, ht⟩
  · obtain ⟨hp, hf, hS⟩ := pageRef_eq_some.1 hr
    exact ⟨hpd, s.mem pt j, ⟨pt, ht, hj, rfl, hp⟩, hf, hS⟩

namespace Inv

/-! ## A new table -/

section

variable (h : s.Inv K W S P pds L)
include h

/-- The places of a directory and of its tables after an entry has been pointed
at a table that was loose. -/
theorem table_attach (hpt : pt ∈ L) (hi : i < tableSize) (hdir : K.dir i = Entry.zero)
    (hf : e.frame = pt) (hp : e.present = true) (hl : e.large = false) :
    (s.setWord pd i e).Table pd' i' g
      ↔ (if pd' = pd ∧ i' = i then g = pt else s.Table pd' i' g) := by
  have hne : pt ≠ 0 := by
    rintro rfl
    exact K.zero_not_mem (h.mem_frames (h.covered.pos_of_mem hpt))
  unfold Table OwnTable
  rw [setWord_mem, setWord_kpd]
  split_ifs with hat
  · obtain ⟨rfl, rfl⟩ := hat
    rw [hf, h.kpd, hdir]
    constructor
    · rintro ⟨-, -, rfl⟩
      rfl
    · rintro rfl
      exact ⟨hi, ⟨hp, hl, hne⟩, rfl⟩
  · exact Iff.rfl

theorem maps_attach (hpt : pt ∈ L) (hpd : pd ∈ pds) (hi : i < tableSize)
    (hdir : K.dir i = Entry.zero) (hf : e.frame = pt) (hp : e.present = true) (hl : e.large = false)
    (hpd' : pd' ∈ pds) :
    (s.setWord pd i e).Maps pd' i' j e₀
      ↔ (if pd' = pd ∧ i' = i then j < tableSize ∧ s.mem pt j = e₀ ∧ e₀.present = true
          else s.Maps pd' i' j e₀) := by
  have hptpd : pt ≠ pd := fun heq => (h.data_of_mem hpt).1 (heq ▸ hpd)
  unfold Maps
  simp only [h.table_attach hpt hi hdir hf hp hl]
  split_ifs with hat
  · constructor
    · rintro ⟨pt', rfl, hj, he, hpr⟩
      rw [setWord_mem_of_ne hptpd] at he
      exact ⟨hj, he, hpr⟩
    · rintro ⟨hj, he, hpr⟩
      refine ⟨pt, rfl, hj, ?_, hpr⟩
      rw [setWord_mem_of_ne hptpd]
      exact he
  · refine exists_congr (fun pt' => and_congr_right (fun hT => ?_))
    have hne : pt' ≠ pd := by
      rintro rfl
      exact h.table_not_dir hpd' hT hpd
    rw [setWord_mem_of_ne hne]

/-- An entry of a directory that is not present is empty in the kernel's. -/
theorem dir_zero (hpd : pd ∈ pds) (hi : i < tableSize) (hp : (s.mem pd i).present = false) :
    K.dir i = Entry.zero := by
  rcases h.shape pd hpd i hi with heq | ⟨hz, -⟩
  · rcases K.entry i with hz | ⟨hpr, -⟩
    · exact hz
    · rw [heq, hpr] at hp
      cases hp
  · exact hz

end

/-- **A loose table may be hung into a directory.** -/
theorem attachTable (h : s.Inv K W S P pds (s.tableRefs S pt + L)) (hone : s.refs pt = 1)
    (hS : ∀ f ∈ S, f ∈ L) (hpd : pd ∈ pds) (hi : i < tableSize)
    (hempty : (s.mem pd i).present = false) (hf : e.frame = pt) (hp : e.present = true)
    (hl : e.large = false)
    (hP : ∀ j, j < tableSize → (s.mem pt j).present = true → P pd i j (s.mem pt j))
    (hW : W → ∀ j, j < tableSize → (s.mem pt j).present = true →
      (s.mem pt j).writable = true → (s.mem pt j).frame ∉ S → s.refs (s.mem pt j).frame = 1) :
    (s.setWord pd i e).Inv K W S P pds L := by
  have hpt : pt ∈ s.tableRefs S pt + L :=
    mem_add.2 (.inl (mem_cons_self _ _))
  have hdir := h.dir_zero hpd hi hempty
  have htab : ∀ {pd' i' g}, (s.setWord pd i e).Table pd' i' g
      ↔ (if pd' = pd ∧ i' = i then g = pt else s.Table pd' i' g) :=
    h.table_attach hpt hi hdir hf hp hl
  have hmaps : ∀ {pd' i' j e₀}, pd' ∈ pds → ((s.setWord pd i e).Maps pd' i' j e₀
      ↔ (if pd' = pd ∧ i' = i then j < tableSize ∧ s.mem pt j = e₀ ∧ e₀.present = true
          else s.Maps pd' i' j e₀)) := fun hpd' =>
    h.maps_attach hpt hpd hi hdir hf hp hl hpd'
  refine ⟨h.pmm, ?_, h.kpd, ?_, ?_, h.dir_one, ?_, fun f hf => ⟨hS f hf, (h.surface f hf).2⟩,
    ?_, ?_⟩
  · refine h.covered.put (s.column S pd i pt) (fun o f hr => ?_)
      (fun f => (encard_column S s pd i pt f).le)
    cases o with
    | dir pd' => exact .inl hr
    | table pd' i' =>
      have hr₂ := htab.1 hr.2
      split_ifs at hr₂ with hat
      · obtain ⟨rfl, rfl⟩ := hat
        exact .inr (.inl ⟨rfl, hr₂.symm⟩)
      · exact .inl ⟨hr.1, hr₂⟩
    | page pd' i' j =>
      obtain ⟨hpd', e', hm, hef, hfS⟩ := hr
      have hm' := (hmaps hpd').1 hm
      split_ifs at hm' with hat
      · obtain ⟨rfl, rfl⟩ := hat
        obtain ⟨hj, rfl, hpr⟩ := hm'
        exact .inr (.inr ⟨j, ⟨hj, pageRef_eq_some.2 ⟨hpr, hef, hfS⟩⟩, rfl⟩)
      · exact .inl ⟨hpd', e', hm', hef, hfS⟩
  · intro k hk
    have hpdmem : pd ∈ K.frames := h.mem_frames (h.dir_one pd hpd).ge
    have hne : k ≠ pd := fun heq => hk (heq ▸ hpdmem)
    rw [setWord_mem_of_ne hne]
    exact h.kernel k hk
  · intro pd' hpd' i' hi'
    by_cases hat : pd' = pd ∧ i' = i
    · refine .inr ⟨hat.2 ▸ hdir, ?_⟩
      exact (htab.2 (by rw [if_pos hat])).2.1
    · have := h.shape pd' hpd' i' hi'
      unfold OwnTable at this ⊢
      rw [setWord_mem, if_neg hat]
      exact this
  · intro pd' hpd' i' g hT
    rw [htab] at hT
    split_ifs at hT with hat
    · rw [hT]
      exact hone
    · exact h.table_one pd' hpd' i' g hT
  · intro pd' hpd' i' j e' hm
    rw [hmaps hpd'] at hm
    split_ifs at hm with hat
    · obtain ⟨rfl, rfl⟩ := hat
      obtain ⟨hj, rfl, hpr⟩ := hm
      exact hP j hj hpr
    · exact h.maps pd' hpd' i' j e' hm
  · intro hw pd' hpd' i' j e' hm hwr heS
    rw [hmaps hpd'] at hm
    split_ifs at hm with hat
    · obtain ⟨hj, rfl, hpr⟩ := hm
      exact hW hw j hj hpr hwr heS
    · exact h.alone hw pd' hpd' i' j e' hm hwr heS

/-- A table of zeros has no references in it. -/
theorem tableRefs_zero (hz : ∀ j, (s.mem pt j).present = false) : s.tableRefs S pt = {pt} := by
  have hnone : s.pageRef S pt = fun _ => none := by
    funext j
    unfold pageRef
    rw [if_neg]
    rintro ⟨hp, -⟩
    rw [hz j] at hp
    cases hp
  unfold tableRefs tally
  rw [hnone, filterMap_none]
  rfl

/-! ## A new directory -/

/-- **A loose copy of the kernel's directory is an address space.** -/
theorem attachDir (h : s.Inv K W S P pds (pd ::ₘ L)) (hone : s.refs pd = 1)
    (hS : ∀ f ∈ S, f ∈ L) (hcopy : ∀ i, s.mem pd i = K.dir i) :
    s.Inv K W S P (insert pd pds) L := by
  have hno : ∀ {i pt}, ¬ s.Table pd i pt := by
    rintro i pt ⟨-, ⟨-, -, hne⟩, -⟩
    rw [hcopy i, h.kpd] at hne
    exact hne rfl
  have hmap : ∀ {i j e}, ¬ s.Maps pd i j e := by
    rintro i j e ⟨pt, ht, -⟩
    exact hno ht
  refine ⟨h.pmm, ?_, h.kpd, h.kernel, ?_, ?_, ?_, fun f hf => ⟨hS f hf, (h.surface f hf).2⟩,
    ?_, ?_⟩
  · have hc : Covered (s.Refers S pds) ({pd} + L) s.refs := h.covered
    refine hc.put (fun f => {o | o = .dir pd ∧ pd = f}) (fun o f hr => ?_) (fun f => ?_)
    · cases o with
      | dir pd' =>
        rcases mem_insert_iff.1 hr.1 with rfl | hpd'
        · exact .inr ⟨rfl, hr.2⟩
        · exact .inl ⟨hpd', hr.2⟩
      | table pd' i =>
        rcases mem_insert_iff.1 hr.1 with rfl | hpd'
        · exact absurd hr.2 hno
        · exact .inl ⟨hpd', hr.2⟩
      | page pd' i j =>
        obtain ⟨hin, e, hm, hf⟩ := hr
        rcases mem_insert_iff.1 hin with rfl | hpd'
        · exact absurd hm hmap
        · exact .inl ⟨hpd', e, hm, hf⟩
    · rw [Multiset.count_singleton]
      split_ifs with hf
      · rw [cast_one]
        exact encard_le_one_iff.2 (fun a b ha hb => ha.1.trans hb.1.symm)
      · refine le_of_eq ?_
        rw [cast_zero, encard_eq_zero]
        exact eq_empty_of_forall_notMem (fun o ho => hf ho.2.symm)
  · rintro pd' (rfl | hpd') i hi
    · exact .inl (hcopy i)
    · exact h.shape pd' hpd' i hi
  · rintro pd' (rfl | hpd')
    · exact hone
    · exact h.dir_one pd' hpd'
  · rintro pd' (rfl | hpd') i pt ht
    · exact absurd ht hno
    · exact h.table_one pd' hpd' i pt ht
  · rintro pd' (rfl | hpd') i j e hm
    · exact absurd hm hmap
    · exact h.maps pd' hpd' i j e hm
  · rintro hw pd' (rfl | hpd') i j e hm
    · exact absurd hm hmap
    · exact h.alone hw pd' hpd' i j e hm

/-! ## Cutting an address space off -/

/-- The place is below one of the first `n` entries of the directory. -/
def Below (pd n : ℕ) : Holder → Prop
  | .dir _ => False
  | .table pd' i => pd' = pd ∧ i < n
  | .page pd' i _ => pd' = pd ∧ i < n

/-- The references below the first entries come loose one entry at a time. -/
theorem covered_below (h : s.Inv K W S P pds L) (hpd : pd ∈ pds) (n : ℕ) (hn : n ≤ tableSize) :
    Covered (fun o f => s.Refers S pds o f ∧ ¬ Below pd n o)
      (((List.range n).map (s.entryRefs S pd)).sum + L) s.refs := by
  induction n with
  | zero =>
    rw [List.range_zero, List.map_nil, List.sum_nil, zero_add]
    exact h.covered.congr (fun o f hr => hr.1)
  | succ n ih =>
    rw [List.range_succ, List.map_append, List.sum_append, List.map_singleton, List.sum_singleton,
      add_comm (List.sum _), add_assoc]
    have ih := ih (le_of_succ_le hn)
    unfold entryRefs
    split_ifs with hown
    · have ht : s.Table pd n (s.mem pd n).frame := ⟨hn, hown, rfl⟩
      refine ih.take (s.column S pd n (s.mem pd n).frame) (fun o f hr => ⟨⟨hr.1, ?_⟩, ?_⟩)
        (fun f o ho => ⟨refers_of_mem_column hpd ht ho, ?_⟩)
        (fun f => (encard_column S s pd n _ f).ge)
      · intro hb
        refine hr.2 ?_
        cases o with
        | dir pd' => exact hb
        | table pd' i => exact ⟨hb.1, lt_succ_of_lt hb.2⟩
        | page pd' i j => exact ⟨hb.1, lt_succ_of_lt hb.2⟩
      · rintro (⟨rfl, -⟩ | ⟨j, -, rfl⟩) <;> exact hr.2 ⟨rfl, lt_succ_self n⟩
      · rcases ho with ⟨rfl, -⟩ | ⟨j, -, rfl⟩ <;> exact fun hb => lt_irrefl n hb.2
    · rw [zero_add]
      refine ih.congr (fun o f hr => ⟨hr.1, fun hb => hr.2 ?_⟩)
      cases o with
      | dir pd' => exact hb
      | table pd' i => exact ⟨hb.1, lt_succ_of_lt hb.2⟩
      | page pd' i j => exact ⟨hb.1, lt_succ_of_lt hb.2⟩

/-- **An address space may be cut off**, its references coming loose. -/
theorem detach (h : s.Inv K W S P pds L) (hpd : pd ∈ pds) :
    s.Inv K W S P (pds \ {pd}) (s.spaceRefs S pd + L) := by
  have hbelow := h.covered_below hpd tableSize le_rfl
  unfold spaceRefs
  generalize ((List.range tableSize).map (s.entryRefs S pd)).sum = N at hbelow ⊢
  refine ⟨h.pmm, ?_, h.kpd, h.kernel, fun pd' hpd' => h.shape pd' hpd'.1,
    fun pd' hpd' => h.dir_one pd' hpd'.1, fun pd' hpd' => h.table_one pd' hpd'.1,
    fun f hf => ⟨mem_add.2 (.inr (h.surface f hf).1), (h.surface f hf).2⟩,
    fun pd' hpd' => h.maps pd' hpd'.1, fun hw pd' hpd' => h.alone hw pd' hpd'.1⟩
  rw [add_comm N, add_assoc]
  refine hbelow.take (fun f => {o | o = .dir pd ∧ pd = f}) (fun o f hr => ?_) ?_ (fun f => ?_)
  · cases o with
    | dir pd' =>
      refine ⟨⟨⟨hr.1.1, hr.2⟩, id⟩, fun ho => hr.1.2 ?_⟩
      injection ho.1
    | table pd' i =>
      refine ⟨⟨⟨hr.1.1, hr.2⟩, fun hb => hr.1.2 hb.1⟩, fun ho => ?_⟩
      cases ho.1
    | page pd' i j =>
      refine ⟨⟨⟨hr.1.1, hr.2⟩, fun hb => hr.1.2 hb.1⟩, fun ho => ?_⟩
      cases ho.1
  · rintro f o ⟨rfl, rfl⟩
    exact ⟨⟨hpd, rfl⟩, id⟩
  · rw [Multiset.count_singleton]
    split_ifs with hf
    · rw [cast_one]
      exact one_le_encard_iff_nonempty.2 ⟨.dir pd, rfl, hf.symm⟩
    · rw [cast_zero]
      exact zero_le

end Inv

end Vm

end Makar
