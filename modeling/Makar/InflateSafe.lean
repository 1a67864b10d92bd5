import Makar.InflateCodes

/-!
# The decompressor stays inside its buffers

Whatever the input is, `inflate_raw` returns: it ends, and every access it makes is inside
the array it goes to (`inflateRaw_returns`). The input may describe codes that are
over-subscribed or incomplete, and may end anywhere.

The sizes are those of buffers in memory. The source adds up to 65535 to a position before
it compares the sum with a size, in 32 bits; where the sum can wrap the comparison lets
through what it is to keep out, and an input of `2 ^ 32 - 1` bytes makes it do so
(`inflateRaw_wraps`).
-/

namespace Makar

open List Function Nat

open Checked

variable {z : InfIn} {dst : ℕ → UInt8} {s t u : Inf}

/-! ## Output -/

theorem put_returns (hz : z.Fits) (hs : InfOk z dst s) (hlt : s.dstPos < z.dstCap) (b : UInt8) :
    Returns (z.put b) s fun _ t => InfOn z dst s t ∧ t.dstPos = s.dstPos + 1 := by
  have hcap := hz.dst
  have hmod : (s.dstPos + 1) % 2 ^ 32 = s.dstPos + 1 := mod_eq_of_lt (by omega)
  refine Returns.get (Returns.check hlt ⟨(), _, rfl, ⟨⟨hs.src, ?_, fun i hi => ?_⟩, le_refl _, id⟩,
    hmod⟩)
  · show (s.dstPos + 1) % 2 ^ 32 ≤ z.dstCap
    omega
  · show update s.dst s.dstPos b i = dst i
    rw [update_of_ne (by omega)]
    exact hs.rest i hi

/-- A match is copied from what is there, to where there is room. -/
theorem infCopy_returns (hz : z.Fits) (hs : InfOk z dst s) {len dist : ℕ} (hdist : 0 < dist)
    (hback : dist ≤ s.dstPos) (hroom : s.dstPos + len ≤ z.dstCap) :
    Returns (infCopy z len dist) s fun _ t => InfOn z dst s t := by
  refine (Returns.foldlM_range (I := fun i (_ : Unit) t => InfOn z dst s t
    ∧ t.dstPos = s.dstPos + i) len ?_ ⟨hs.on, rfl⟩).mono (fun _ t ht => ht.1)
  rintro i _ t hi ⟨hon, hpos⟩
  refine Returns.get (Returns.check ⟨hdist, by omega⟩ (Returns.check (by omega) ?_))
  refine (put_returns hz hon.ok (by omega) _).mono ?_
  rintro _ u ⟨hon', hpos'⟩
  exact ⟨hon.trans hon', by omega⟩

/-! ## `inf_block` -/

theorem infStop_returns {α : Type} (hs : InfOn z dst s t) :
    Returns (infStop : InfM (α ⊕ ℤ)) t fun r u => InfOn z dst s u ∧ ∀ a, r ≠ .inl a :=
  returns_infError (Returns.pure ⟨hs.trans hs.ok.setError, fun _ h => nomatch h⟩)

/-- The lengths of the constant tables are those the symbols are compared with. -/
theorem tables : infLenBase.length = 29 ∧ infLenExtra.length = 29
    ∧ infDistBase.length = 30 ∧ infDistExtra.length = 30 ∧ infClcOrder.length = 19 := by
  decide

theorem lenBase_add_lt {sym bits : ℕ} (hsym : sym < 29)
    (hbits : bits < 2 ^ infLenExtra.getD sym 0) : infLenBase.getD sym 0 + bits < 65536 := by
  have hbase : ∀ i < 29, infLenBase.getD i 0 + 2 ^ infLenExtra.getD i 0 ≤ 65536 := by decide
  have := hbase sym hsym
  omega

theorem distBase_pos {sym : ℕ} (hsym : sym < 30) : 0 < infDistBase.getD sym 0 := by
  have hbase : ∀ i < 30, 0 < infDistBase.getD i 0 := by decide
  exact hbase sym hsym

theorem infMatch_returns (hz : z.Fits) {dh : InfHuff} (hdh : dh.Ok) (hs : InfOk z dst s) (sym : ℕ) :
    Returns (infMatch z dh sym) s fun _ t => InfOn z dst s t := by
  unfold infMatch
  refine Returns.ite (fun _ => (infStop_returns hs.on).mono fun _ _ h => h.1) fun hsym => ?_
  have hsym' : sym < 29 := Nat.lt_of_not_le hsym
  obtain ⟨hlb, hle, hdb, hde, -⟩ := tables
  refine returns_infAt (by omega) (returns_infAt (by omega) ?_)
  refine Returns.bind (infGetbits_returns hz hs _) ?_
  rintro bits t₁ ⟨hbits, hon₁⟩
  refine Returns.bind (infDecode_returns hz hdh hon₁.ok) ?_
  rintro dsym t₂ ⟨hon₂, -⟩
  have hon₂ := hon₁.trans hon₂
  refine Returns.get ?_
  refine Returns.ite (fun _ => (infStop_returns hon₂).mono fun _ _ h => h.1) fun hstop => ?_
  have hdsym : dsym.toNat < 30 := by omega
  refine returns_infAt (by omega) (returns_infAt (by omega) ?_)
  refine Returns.bind (infGetbits_returns hz hon₂.ok _) ?_
  rintro dbits t₃ ⟨-, hon₃⟩
  have hon₃ := hon₂.trans hon₃
  refine Returns.get ?_
  refine Returns.ite (fun _ => (infStop_returns hon₃).mono fun _ _ h => h.1) fun hdist => ?_
  -- the sum is below the limit, so the comparison is the one that is meant
  have hlen := lenBase_add_lt hsym' hbits
  have hcap := hz.dst
  have hpos := hon₃.ok.pos
  have hmod : (t₃.dstPos + (infLenBase.getD sym 0 + bits)) % 2 ^ 32
      = t₃.dstPos + (infLenBase.getD sym 0 + bits) := mod_eq_of_lt (by omega)
  rw [hmod]
  refine Returns.ite (fun _ => (infStop_returns hon₃).mono fun _ _ h => h.1) fun hroom => ?_
  have hdpos := distBase_pos hdsym
  refine Returns.bind (infCopy_returns hz hon₃.ok (by omega) (by omega) (by omega)) ?_
  exact fun _ t₄ hon₄ => Returns.pure (hon₃.trans hon₄)

section

variable (hz : z.Fits) {lh dh : InfHuff} (hlh : lh.Ok) (hdh : dh.Ok) (hs : InfOk z dst s)
include hz hlh hdh hs

/-- A turn that goes on has taken a bit. -/
theorem infBlockTurn_returns :
    Returns (infBlockTurn z lh dh ()) s fun r t => InfOn z dst s t
      ∧ (r = .inl () → t.bits z < s.bits z) := by
  unfold infBlockTurn
  refine Returns.bind (infDecode_returns hz hlh hs) ?_
  rintro sym t ⟨hon, htook⟩
  refine Returns.get ?_
  by_cases herr : t.error = true
  · rw [if_pos herr]
    exact Returns.pure ⟨hon, fun h => nomatch h⟩
  have hlt := (htook (by simpa using herr)).2
  rw [if_neg herr]
  refine Returns.ite (fun _ => Returns.pure ⟨hon, fun h => nomatch h⟩) fun hend => ?_
  refine Returns.ite (fun hlit => ?_) fun _ => ?_
  · split_ifs with hroom
    · exact (infStop_returns hon).mono fun _ _ h => ⟨h.1, fun hc => absurd hc (h.2 ())⟩
    · refine Returns.bind (put_returns hz hon.ok (by omega) _) ?_
      rintro _ u ⟨hon', -⟩
      exact Returns.pure ⟨hon.trans hon', fun _ => lt_of_le_of_lt hon'.bits hlt⟩
  · refine (infMatch_returns hz hdh hon.ok _).mono fun r u hon' => ?_
    exact ⟨hon.trans hon', fun _ => lt_of_le_of_lt hon'.bits hlt⟩

/-- **`inf_block`** ends, by the bits that are left. -/
theorem infBlock_returns {fuel : ℕ} (hfuel : s.bits z < fuel) :
    Returns (infBlock z fuel lh dh) s fun _ t => InfOn z dst s t := by
  refine Returns.repeatM (I := fun _ t => InfOn z dst s t) (v := fun _ t => t.bits z) ?_ hs.on
    hfuel
  rintro ⟨⟩ t hon
  refine (infBlockTurn_returns hz hlh hdh hon.ok).mono ?_
  rintro (⟨⟩ | rc) u ⟨hon', hlt⟩
  · exact ⟨hon.trans hon', hlt rfl⟩
  · exact hon.trans hon'

end

/-! ## `inf_fixed` and `inf_dynamic` -/

theorem infFixed_returns : Returns infFixed s fun h t => t = s ∧ h.1.Ok ∧ h.2.Ok := by
  unfold infFixed
  refine Returns.bind (infBuild_returns (by decide +kernel) (by decide +kernel) (by decide)) ?_
  rintro lh t ⟨rfl, hlh, -⟩
  refine Returns.bind (infBuild_returns (by decide +kernel) (by decide +kernel) (by decide)) ?_
  rintro dh u ⟨rfl, hdh, -⟩
  exact Returns.pure ⟨rfl, hlh, hdh⟩

/-- The code lengths that have been read. -/
structure InfLengths (total : ℕ) (lengths : List ℕ) : Prop where
  /-- There are no more of them than are asked for. -/
  count : lengths.length ≤ total
  /-- They are lengths of codes. -/
  small : ∀ l ∈ lengths, l ≤ infMaxbits

variable {total : ℕ} {lengths : List ℕ}

section

variable (htotal : total ≤ infMaxcodes) (h : InfLengths total lengths)
  (hlt : lengths.length < total)
include htotal h hlt

theorem infPush_returns {l : ℕ} (hl : l ≤ infMaxbits) :
    Returns (infPush lengths l) s fun r t => t = s ∧ InfLengths total r
      ∧ r.length = lengths.length + 1 := by
  refine Returns.check (by omega) (Returns.pure ⟨rfl, ⟨?_, fun k hk => ?_⟩, ?_⟩)
  · rw [length_append, length_singleton]
    exact hlt
  · rcases mem_append.1 hk with hk | hk
    · exact h.small k hk
    · rw [mem_singleton.1 hk]
      exact hl
  · rw [length_append, length_singleton]

/-- A repetition adds a length, if there is one to add. -/
theorem infRepeat_returns {rep l : ℕ} (hrep : 0 < rep) (hl : l ≤ infMaxbits) :
    Returns (infRepeat total rep l lengths) s fun r t => t = s ∧ InfLengths total r
      ∧ lengths.length < r.length := by
  refine (Returns.foldlM_range (I := fun i (r : List ℕ) t => t = s ∧ InfLengths total r
    ∧ r.length = min (lengths.length + i) total) rep ?_ ⟨rfl, h, ?_⟩).mono ?_
  · rintro i r t - ⟨rfl, hr, hlen⟩
    refine Returns.ite (fun hmore => ?_) fun hmore => ?_
    · refine (infPush_returns htotal hr hmore hl).mono ?_
      rintro r' u ⟨rfl, hr', hlen'⟩
      exact ⟨rfl, hr', by omega⟩
    · exact Returns.pure ⟨rfl, hr, by omega⟩
  · omega
  · rintro r t ⟨rfl, hr, hlen⟩
    exact ⟨rfl, hr, by omega⟩

end

/-- What a turn over the code lengths returns: a turn that goes on has added one. -/
def InfTurned (total : ℕ) (lengths : List ℕ) : List ℕ ⊕ Option (List ℕ) → Prop
  | .inl r => InfLengths total r ∧ lengths.length < r.length
  | .inr (some r) => InfLengths total r ∧ total ≤ r.length
  | .inr none => True

theorem infRun_returns (hz : z.Fits) (htotal : total ≤ infMaxcodes) (h : InfLengths total lengths)
    (hlt : lengths.length < total) (hs : InfOk z dst s) {bits least l : ℕ} (hleast : 0 < least)
    (hl : l ≤ infMaxbits) :
    Returns (infRun z total bits least l lengths) s fun r t =>
      InfOn z dst s t ∧ InfTurned total lengths r := by
  refine Returns.bind (infGetbits_returns hz hs bits) ?_
  rintro rep t ⟨-, hon⟩
  refine Returns.bind (infRepeat_returns htotal h hlt (by omega) hl) ?_
  rintro r u ⟨rfl, hr⟩
  exact Returns.pure ⟨hon, hr⟩

theorem infLengthsTurn_returns (hz : z.Fits) {clh : InfHuff} (hclh : clh.Ok)
    (htotal : total ≤ infMaxcodes) (h : InfLengths total lengths) (hs : InfOk z dst s) :
    Returns (infLengthsTurn z clh total lengths) s fun r t =>
      InfOn z dst s t ∧ InfTurned total lengths r := by
  unfold infLengthsTurn
  refine Returns.ite (fun hdone => Returns.pure ⟨hs.on, h, hdone⟩) fun hdone => ?_
  have hlt : lengths.length < total := Nat.lt_of_not_le hdone
  refine Returns.bind (infDecode_returns hz hclh hs) ?_
  rintro sym t ⟨hon, -⟩
  have hrun : ∀ bits least l, 0 < least → l ≤ infMaxbits →
      Returns (infRun z total bits least l lengths) t fun r u =>
        InfOn z dst s u ∧ InfTurned total lengths r := by
    intro bits least l hleast hl
    refine (infRun_returns hz htotal h hlt hon.ok hleast hl).mono ?_
    exact fun r u hu => ⟨hon.trans hu.1, hu.2⟩
  refine Returns.get ?_
  refine Returns.ite (fun _ => Returns.pure ⟨hon, trivial⟩) fun herr => ?_
  refine Returns.ite (fun hlit => ?_) fun hlit => ?_
  · have hsmall : sym.toNat % 256 ≤ infMaxbits := by
      unfold infMaxbits
      omega
    refine Returns.bind (infPush_returns htotal h hlt hsmall) ?_
    rintro r u ⟨rfl, hr, hlen⟩
    exact Returns.pure ⟨hon, hr, by omega⟩
  refine Returns.ite (fun hprev => ?_) fun hprev => ?_
  · split_ifs with hnone
    · exact returns_infError (Returns.pure ⟨hon.trans hon.ok.setError, trivial⟩)
    · refine returns_infAt (by omega) (hrun 2 3 _ (by decide) ?_)
      refine h.small _ ?_
      rw [getD_eq_getElem _ _ (by omega)]
      exact getElem_mem _
  refine Returns.ite (fun hzeros => hrun 3 3 0 (by decide) (zero_le _)) fun hzeros => ?_
  exact hrun 7 11 0 (by decide) (zero_le _)

/-- The lengths of the code for the code lengths. -/
theorem infClen_returns (hz : z.Fits) (hs : InfOk z dst s) {hclen : ℕ} (hle : hclen ≤ 19) :
    Returns (infClen z hclen) s fun clen t => InfOn z dst s t ∧ InfLengths 19 clen
      ∧ clen.length = 19 := by
  refine (Returns.foldlM_range (I := fun _ (clen : List ℕ) t => InfOn z dst s t
    ∧ (∀ l ∈ clen, l ≤ infMaxbits) ∧ clen.length = 19) hclen ?_ ⟨hs.on, ?_, rfl⟩).mono ?_
  · rintro i clen t hi ⟨hon, hsmall, hlen⟩
    have horder : ∀ i < 19, infClcOrder.getD i 0 < 19 := by decide
    refine returns_infAt (by rw [tables.2.2.2.2]; omega) ?_
    refine Returns.bind (infGetbits_returns hz hon.ok 3) ?_
    rintro l u ⟨hl, hon'⟩
    refine Returns.check (horder i (by omega)) (Returns.pure ⟨hon.trans hon', fun k hk => ?_, ?_⟩)
    · rcases mem_or_eq_of_mem_set hk with hk | hk
      · exact hsmall k hk
      · rw [hk]
        unfold infMaxbits
        omega
    · rw [length_set, hlen]
  · intro l hl
    rw [eq_of_mem_replicate hl]
    exact zero_le _
  · rintro clen t ⟨hon, hsmall, hlen⟩
    exact ⟨hon, ⟨hlen.le, hsmall⟩, hlen⟩

/-- **`inf_dynamic`** makes tables that are in order, of any description. -/
theorem infDynamic_returns (hz : z.Fits) (hs : InfOk z dst s) :
    Returns (infDynamic z) s fun r t => InfOn z dst s t
      ∧ ∀ h, r = some h → h.1.Ok ∧ h.2.Ok := by
  unfold infDynamic
  refine Returns.bind (infGetbits_returns hz hs 5) ?_
  rintro hlit t₁ ⟨-, hon₁⟩
  refine Returns.bind (infGetbits_returns hz hon₁.ok 5) ?_
  rintro hdist t₂ ⟨-, hon₂⟩
  have hon₂ := hon₁.trans hon₂
  refine Returns.bind (infGetbits_returns hz hon₂.ok 4) ?_
  rintro hclen t₃ ⟨hclen_lt, hon₃⟩
  have hon₃ := hon₂.trans hon₃
  refine Returns.ite (fun _ => ?_) fun hmany => ?_
  · exact returns_infError (Returns.pure ⟨hon₃.trans hon₃.ok.setError, fun _ h => nomatch h⟩)
  have htotal : hlit + 257 + (hdist + 1) ≤ infMaxcodes := by
    unfold infMaxcodes
    omega
  refine Returns.bind (infClen_returns hz hon₃.ok (by omega)) ?_
  rintro clen t₄ ⟨hon₄, hclen, hlen⟩
  have hon₄ := hon₃.trans hon₄
  refine Returns.bind (infBuild_returns hlen.ge (fun l hl => hclen.small l (mem_of_mem_take hl))
    (by decide)) ?_
  rintro clh t₅ ⟨rfl, hclh, -⟩
  refine Returns.bind (Returns.repeatM (I := fun l t => InfOn z dst s t
    ∧ InfLengths (hlit + 257 + (hdist + 1)) l) (v := fun l _ => hlit + 257 + (hdist + 1) - l.length)
    (R := fun r t => InfOn z dst s t ∧ ∀ l, r = some l →
      InfLengths (hlit + 257 + (hdist + 1)) l ∧ hlit + 257 + (hdist + 1) ≤ l.length)
    ?_ ⟨hon₄, zero_le _, fun l hl => nomatch hl⟩ (by omega)) ?_
  · rintro lengths t ⟨hon, hl⟩
    refine (infLengthsTurn_returns hz hclh htotal hl hon.ok).mono ?_
    rintro (r | _ | r) u ⟨hon', hr⟩
    · obtain ⟨hr, hgrew⟩ := hr
      have hcount := hr.count
      exact ⟨⟨hon.trans hon', hr⟩, by omega⟩
    · exact ⟨hon.trans hon', fun _ h => nomatch h⟩
    · exact ⟨hon.trans hon', fun l h => by cases h; exact hr⟩
  rintro (_ | lengths) t₆ ⟨hon₆, hr⟩
  · exact Returns.pure ⟨hon₆, fun _ h => nomatch h⟩
  obtain ⟨hl, hall⟩ := hr lengths rfl
  refine Returns.get ?_
  refine Returns.ite (fun _ => Returns.pure ⟨hon₆, fun _ h => nomatch h⟩) fun herr => ?_
  refine Returns.bind (infBuild_returns (by omega)
    (fun l h => hl.small l (mem_of_mem_take h)) (by omega)) ?_
  rintro lh t₇ ⟨rfl, hlh, -⟩
  refine Returns.bind (infBuild_returns (by rw [length_drop]; omega)
    (fun l h => hl.small l (mem_of_mem_drop (mem_of_mem_take h))) (by omega)) ?_
  rintro dh t₈ ⟨rfl, hdh, -⟩
  exact Returns.pure ⟨hon₆, fun h heq => by cases heq; exact ⟨hlh, hdh⟩⟩

/-! ## `inf_stored` -/

/-- The bytes are copied, and nothing else changes. -/
theorem infMemcpy_returns {src pos len : ℕ} (hsrc : src + len ≤ z.srcLen)
    (hpos : pos + len ≤ z.dstCap) :
    Returns (infMemcpy z src pos len) s fun _ (t : Inf) => t = { s with
      dst := fun i => if pos ≤ i ∧ i < pos + len then z.src (src + (i - pos)) else s.dst i } := by
  refine Returns.foldlM_range (I := fun n (_ : Unit) (t : Inf) => t = { s with
    dst := fun i => if pos ≤ i ∧ i < pos + n then z.src (src + (i - pos)) else s.dst i }) len ?_ ?_
  · rintro n _ t hn rfl
    refine returns_srcAt (by omega) (Returns.check (by omega) (Returns.get ⟨(), _, rfl, ?_⟩))
    congr 1
    funext i
    by_cases hi : i = pos + n
    · subst hi
      rw [update_self, if_pos (by omega), Nat.add_sub_cancel_left, UInt8.ofNat_toNat]
    · rw [update_of_ne hi]
      have hiff : (pos ≤ i ∧ i < pos + n) ↔ (pos ≤ i ∧ i < pos + (n + 1)) := by omega
      simp only [hiff]
  · have hnone : (fun i => if pos ≤ i ∧ i < pos + 0 then z.src (src + (i - pos)) else s.dst i)
        = s.dst := funext fun i => if_neg (by omega)
    rw [hnone]

/-- **`inf_stored`** copies inside both buffers, or not at all. -/
theorem infStored_returns (hz : z.Fits) (hs : InfOk z dst s) :
    Returns (infStored z) s fun _ t => InfOn z dst s t := by
  have hsrc := hz.src
  have hdst := hz.dst
  have hpos := hs.src
  have hpos' := hs.pos
  have hfour : (s.srcPos + 4) % 2 ^ 32 = s.srcPos + 4 := mod_eq_of_lt (by omega)
  have hone : (s.srcPos + 1) % 2 ^ 32 = s.srcPos + 1 := mod_eq_of_lt (by omega)
  -- a state that has dropped the rest of the byte, and moved on in the input
  have hon : ∀ p d q, s.srcPos ≤ p → p ≤ z.srcLen → q ≤ z.dstCap →
      (∀ i, z.dstCap ≤ i → d i = dst i) →
      InfOn z dst s ⟨p, 0, 0, d, q, s.error⟩ := by
    intro p d q hp hp' hq hd
    refine ⟨⟨hp', hq, hd⟩, ?_, id⟩
    unfold Inf.bits
    simp only
    omega
  unfold infStored
  refine Returns.get (Returns.set ?_)
  rw [hfour, hone]
  refine Returns.ite (fun _ => ?_) fun hhead => ?_
  · have hhere := hon s.srcPos s.dst s.dstPos (le_refl _) hpos hpos' hs.rest
    exact returns_infError (Returns.pure (hhere.trans hhere.ok.setError))
  refine returns_srcAt (by omega) (returns_srcAt (by omega) (Returns.set ?_))
  have hlen : (z.src s.srcPos).toNat ||| (z.src (s.srcPos + 1)).toNat <<< 8 < 2 ^ 16 := by
    have h₀ := (z.src s.srcPos).toNat_lt
    have h₁ := (z.src (s.srcPos + 1)).toNat_lt
    refine or_lt_two_pow (by omega) ?_
    rw [shiftLeft_eq]
    omega
  generalize (z.src s.srcPos).toNat ||| (z.src (s.srcPos + 1)).toNat <<< 8 = len at hlen ⊢
  have hsum : (s.srcPos + 4 + len) % 2 ^ 32 = s.srcPos + 4 + len := mod_eq_of_lt (by omega)
  have hsum' : (s.dstPos + len) % 2 ^ 32 = s.dstPos + len := mod_eq_of_lt (by omega)
  have hhere := hon (s.srcPos + 4) s.dst s.dstPos (by omega) (by omega) hpos' hs.rest
  rw [hsum, hsum']
  refine Returns.ite (fun _ => ?_) fun hin => ?_
  · exact returns_infError (Returns.pure (hhere.trans hhere.ok.setError))
  refine Returns.ite (fun _ => ?_) fun hroom => ?_
  · exact returns_infError (Returns.pure (hhere.trans hhere.ok.setError))
  refine Returns.bind (infMemcpy_returns (by omega) (by omega)) ?_
  rintro _ t rfl
  refine Returns.get (Returns.set (Returns.pure ?_))
  simp only [hsum']
  refine hon _ _ _ (by omega) (by omega) (by omega) (fun i hi => ?_)
  rw [if_neg (by omega)]
  exact hs.rest i hi

/-! ## `inflate_raw` -/

/-- The end of a block changes nothing. -/
theorem infNext_returns (final : ℕ) (rc : ℤ) : Returns (infNext final rc) s fun _ t => t = s := by
  refine Returns.get ?_
  split_ifs <;> exact Returns.pure rfl

/-- A turn that goes on has taken a bit. -/
theorem infTurn_returns (hz : z.Fits) (hs : InfOk z dst s) {fuel : ℕ} (hfuel : s.bits z < fuel) :
    Returns (infTurn z fuel ()) s fun r t => InfOn z dst s t
      ∧ (r = .inl () → t.bits z < s.bits z) := by
  unfold infTurn
  refine Returns.bind (infGetbit_returns hz hs) ?_
  rintro final t₁ ⟨-, hon₁, htook⟩
  refine Returns.bind (infGetbits_returns hz hon₁.ok 2) ?_
  rintro type t₂ ⟨-, hon₂⟩
  refine Returns.get ?_
  refine Returns.ite (fun _ => Returns.pure ⟨hon₁.trans hon₂, fun h => nomatch h⟩) fun herr => ?_
  have hlt : t₂.bits z < s.bits z := by
    refine lt_of_le_of_lt hon₂.bits (htook ?_)
    by_contra hc
    exact herr (hon₂.error (by simpa using hc))
  have hon := hon₁.trans hon₂
  -- whatever the block is, it takes no bits back
  have hnext : ∀ {t : Inf} (rc : ℤ), InfOn z dst t₂ t →
      Returns (infNext final rc) t fun r u => InfOn z dst s u
        ∧ (r = .inl () → u.bits z < s.bits z) := by
    intro t rc ht
    refine (infNext_returns final rc).mono ?_
    rintro r u rfl
    exact ⟨hon.trans ht, fun _ => lt_of_le_of_lt ht.bits hlt⟩
  refine Returns.ite (fun _ => ?_) fun _ => ?_
  · exact Returns.bind (infStored_returns hz hon.ok) (fun rc t ht => hnext rc ht)
  refine Returns.ite (fun _ => ?_) fun _ => ?_
  · refine Returns.bind infFixed_returns ?_
    rintro h t ⟨rfl, hlh, hdh⟩
    exact Returns.bind (infBlock_returns hz hlh hdh hon.ok (hlt.trans hfuel))
      (fun rc t ht => hnext rc ht)
  refine Returns.ite (fun _ => ?_) fun _ => ?_
  · refine Returns.bind (infDynamic_returns hz hon.ok) ?_
    rintro (_ | h) t ⟨hon', hh⟩
    · exact Returns.pure ⟨hon.trans hon', fun h => nomatch h⟩
    · obtain ⟨hlh, hdh⟩ := hh h rfl
      refine Returns.bind (infBlock_returns hz hlh hdh hon'.ok
        (lt_of_le_of_lt hon'.bits (hlt.trans hfuel))) ?_
      exact fun rc u hu => hnext rc (hon'.trans hu)
  · exact Returns.pure ⟨hon, fun h => nomatch h⟩

/-- The blocks come to an end: each has taken a bit. -/
theorem infTurns_returns (dst : ℕ → UInt8) (hz : z.Fits) {fuel : ℕ} (hfuel : 8 * z.srcLen < fuel) :
    ∃ rc s, inflateRaw z dst fuel = .ok (rc, s) ∧ InfOk z dst s := by
  have hstart : InfOk z dst ⟨0, 0, 0, dst, 0, false⟩ :=
    ⟨zero_le _, zero_le _, fun _ _ => rfl⟩
  have hrun : Returns (repeatM .fuel (infTurn z fuel) fuel ()) ⟨0, 0, 0, dst, 0, false⟩
      fun _ t => InfOk z dst t := by
    refine Returns.repeatM (I := fun _ t => InfOk z dst t ∧ t.bits z < fuel)
      (v := fun _ t => t.bits z) ?_ ⟨hstart, hfuel⟩ hfuel
    rintro ⟨⟩ t ⟨hok, hlt⟩
    refine (infTurn_returns hz hok hlt).mono ?_
    rintro (⟨⟩ | rc) u ⟨hon, htook⟩
    · exact ⟨⟨hon.ok, (htook rfl).trans hlt⟩, htook rfl⟩
    · exact hon.ok
  exact hrun

/-- **`inflate_raw` is safe and ends**, on every input that is in memory: with more fuel than
the input has bits it returns, so no access was out of bounds, no match was copied from
bytes that were not there and no symbol was read that was not written; the bytes behind the
output are as they were, and what it produced fits. -/
theorem inflateRaw_returns (z : InfIn) (dst : ℕ → UInt8) (hsrc : z.srcLen + 65535 < 2 ^ 32)
    (hdst : z.dstCap + 65535 < 2 ^ 32) (fuel : ℕ) (hfuel : 8 * z.srcLen < fuel) :
    ∃ rc s, inflateRaw z dst fuel = .ok (rc, s) ∧ s.srcPos ≤ z.srcLen ∧ s.dstPos ≤ z.dstCap
      ∧ ∀ i, z.dstCap ≤ i → s.dst i = dst i := by
  obtain ⟨rc, t, heq, hok⟩ := infTurns_returns dst ⟨hsrc, hdst⟩ hfuel
  exact ⟨rc, t, heq, hok.src, hok.pos, hok.rest⟩

/-- The description of a code that ends in the middle. -/
theorem inflateRaw_truncated : ∃ rc s,
    inflateRaw ⟨fun i => [0xED, 0xFD].getD i 0, 2, 16⟩ (fun _ => 0) 17 = .ok (rc, s)
      ∧ s.srcPos ≤ 2 ∧ s.dstPos ≤ 16 ∧ ∀ i, 16 ≤ i → s.dst i = 0 :=
  inflateRaw_returns ⟨fun i => [0xED, 0xFD].getD i 0, 2, 16⟩ (fun _ => 0) (by decide) (by decide) 17
    (by decide)

/-! ## Where the sums wrap -/

/-- The bits of a byte that is zero. -/
theorem infGetbits_zero (hbuf : s.bitbuf = 0) {n : ℕ} (hn : n ≤ s.bitcnt) :
    Returns (infGetbits z n) s fun v t => v = 0 ∧ t = { s with bitcnt := s.bitcnt - n } := by
  refine Returns.foldlM_range (I := fun i v t => v = 0 ∧ t = { s with bitcnt := s.bitcnt - i }) n ?_
    ⟨rfl, rfl⟩
  rintro i v t hi ⟨rfl, rfl⟩
  have hcnt : ¬ s.bitcnt - i = 0 := by omega
  have htake : Returns (infGetbit z) { s with bitcnt := s.bitcnt - i } fun b u =>
      b = 0 ∧ u = { s with bitcnt := s.bitcnt - (i + 1) } := by
    refine Returns.get ?_
    rw [if_neg hcnt]
    refine Returns.set (Returns.pure ⟨?_, ?_⟩)
    · simp only [hbuf, zero_mod]
    · simp only [hbuf, Nat.zero_div, Nat.sub_sub]
  refine Returns.bind htake ?_
  rintro b u ⟨rfl, rfl⟩
  exact Returns.pure ⟨by simp, rfl⟩

variable {d : ℕ → UInt8}

/-- The head of a stored block that is not the last: a byte that is zero. -/
theorem infGetbit_head {p q b : ℕ} (hp : p < z.srcLen) (hlen : z.srcLen < 2 ^ 32)
    (hhead : z.src p = 0) :
    Returns (infGetbit z) ⟨p, b, 0, d, q, false⟩ fun v t =>
      v = 0 ∧ t = ⟨p + 1, 0, 7, d, q, false⟩ := by
  have hmod : (p + 1) % 2 ^ 32 = p + 1 := mod_eq_of_lt (by omega)
  refine Returns.get ?_
  rw [if_pos rfl, if_neg (not_le.2 hp)]
  refine returns_srcAt hp (Returns.set (Returns.pure ⟨?_, ?_⟩))
  · simp only [hhead]
    rfl
  · simp only [hhead, hmod]
    rfl

/-- What a turn does after such a head. -/
theorem infTurn_head {p q b fuel : ℕ} (hp : p < z.srcLen) (hlen : z.srcLen < 2 ^ 32)
    (hhead : z.src p = 0) :
    infTurn z fuel () ⟨p, b, 0, d, q, false⟩
      = (infStored z >>= infNext 0) ⟨p + 1, 0, 5, d, q, false⟩ := by
  obtain ⟨v, t, hbit, rfl, rfl⟩ := infGetbit_head (b := b) (d := d) (q := q) hp hlen hhead
  obtain ⟨v, t, hbits, rfl, rfl⟩ := infGetbits_zero (z := z) (n := 2)
    (s := ⟨p + 1, 0, 7, d, q, false⟩) rfl (show 2 ≤ 7 by decide)
  unfold infTurn
  rw [bind_run hbit, bind_run hbits]
  rfl

/-- A stored block that is inside is copied, and the loop goes on behind it. -/
theorem infTurn_stored (fuel : ℕ) {p q b len : ℕ} (hlen : z.srcLen < 2 ^ 32)
    (hcap : z.dstCap < 2 ^ 32) (hhead : z.src p = 0)
    (hword : (z.src (p + 1)).toNat ||| (z.src (p + 2)).toNat <<< 8 = len)
    (hsrc : p + 5 + len ≤ z.srcLen) (hdst : q + len ≤ z.dstCap) :
    ∃ d', infTurn z fuel () ⟨p, b, 0, d, q, false⟩
      = .ok (.inl (), ⟨p + 5 + len, 0, 0, d', q + len, false⟩) := by
  have hfive : (p + 1 + 4) % 2 ^ 32 = p + 5 := mod_eq_of_lt (by omega)
  have htwo : (p + 1 + 1) % 2 ^ 32 = p + 2 := mod_eq_of_lt (by omega)
  have hsum : (p + 5 + len) % 2 ^ 32 = p + 5 + len := mod_eq_of_lt (by omega)
  have hsum' : (q + len) % 2 ^ 32 = q + len := mod_eq_of_lt (by omega)
  have hstored : Returns (infStored z) ⟨p + 1, 0, 5, d, q, false⟩ fun rc t =>
      rc = 0 ∧ ∃ d', t = ⟨p + 5 + len, 0, 0, d', q + len, false⟩ := by
    refine Returns.get (Returns.set ?_)
    simp only [hfive, htwo]
    rw [if_neg (by omega)]
    refine returns_srcAt (by omega) (returns_srcAt (by omega) (Returns.set ?_))
    simp only [hword, hsum, hsum']
    rw [if_neg (by omega), if_neg (by omega)]
    refine Returns.bind (infMemcpy_returns (by omega) (by omega)) ?_
    rintro _ t rfl
    refine Returns.get (Returns.set ⟨_, _, rfl, rfl, ?_⟩)
    simp only [hsum']
    exact ⟨_, rfl⟩
  obtain ⟨rc, t, hrun, rfl, d', rfl⟩ := hstored
  refine ⟨d', ?_⟩
  rw [infTurn_head (by omega) hlen hhead, bind_run hrun]
  rfl

/-- At the end of an input of `2 ^ 32 - 1` bytes there is no room for the length of a block,
and the check does not see it. -/
theorem infStored_wraps (hlen : z.srcLen = 2 ^ 32 - 1) (hpos : s.srcPos = z.srcLen) :
    infStored z s = .error .src := by
  have hmod : (s.srcPos + 4) % 2 ^ 32 = 3 := by omega
  have hread : ∀ (g : ℕ → InfM ℤ) t, (z.srcAt s.srcPos >>= g) t = .error .src := by
    intro g t
    unfold InfIn.srcAt check
    rw [if_neg (by omega)]
    rfl
  unfold infStored
  refine Returns.bind_error (Q := fun a t => a = s ∧ t = s) ⟨s, s, rfl, rfl, rfl⟩ ?_
  rintro a t ⟨rfl, rfl⟩
  refine Returns.bind_error (Q := fun _ _ => True) ⟨⟨⟩, _, rfl, trivial⟩ (fun _ t _ => ?_)
  rw [hmod, if_neg (by omega)]
  exact hread _ t

/-- An input of `2 ^ 32 - 1` bytes: a stored block of four bytes, and then empty ones. -/
def wrapIn : InfIn := ⟨fun i => if i = 1 then 4 else 0, 2 ^ 32 - 1, 4⟩

/-- The empty blocks, up to the end. -/
theorem wrapIn_turns (fuel n k : ℕ) (hk : 9 + 5 * k < 2 ^ 32 - 1) (d : ℕ → UInt8) :
    ∃ d', repeatM .fuel (infTurn wrapIn fuel) (n + k) () ⟨9, 0, 0, d, 4, false⟩
      = repeatM .fuel (infTurn wrapIn fuel) n () ⟨9 + 5 * k, 0, 0, d', 4, false⟩ := by
  induction k generalizing n with
  | zero => exact ⟨d, rfl⟩
  | succ k ih =>
    obtain ⟨d', hd'⟩ := ih (n + 1) (by omega)
    have hzero : ∀ i, i ≠ 1 → wrapIn.src i = 0 := fun i hi => if_neg hi
    have hword : (wrapIn.src (9 + 5 * k + 1)).toNat ||| (wrapIn.src (9 + 5 * k + 2)).toNat <<< 8
        = 0 := by
      rw [hzero _ (by omega), hzero _ (by omega)]
      rfl
    obtain ⟨d'', hturn⟩ := infTurn_stored (q := 4) (b := 0) (d := d') fuel (by decide) (by decide)
      (hzero _ (by omega)) hword (show 9 + 5 * k + 5 + 0 ≤ 2 ^ 32 - 1 by omega) (by decide)
    refine ⟨d'', ?_⟩
    rw [show n + (k + 1) = n + 1 + k by omega, hd', repeatM_inl n hturn]
    rfl

/-- **The check of the length wraps**: at the last byte of the input the sum of the position
and four is three, and the length of a block is read behind the input. -/
theorem inflateRaw_wraps : inflateRaw wrapIn (fun _ => 0) (2 ^ 36) = .error .src := by
  have hfuel : (2 : ℕ) ^ 36 = 67860483277 + 1 + 858993457 + 1 := by norm_num
  have hturn : ∀ fuel, repeatM .fuel (infTurn wrapIn fuel) (67860483277 + 1 + 858993457 + 1) ()
      ⟨0, 0, 0, fun _ => 0, 0, false⟩ = .error .src := by
    intro fuel
    obtain ⟨d, hfirst⟩ := infTurn_stored (z := wrapIn) (p := 0) (q := 0) (b := 0) (d := fun _ => 0)
      fuel (by decide) (by decide) rfl rfl (by decide) (by decide)
    obtain ⟨d', hturns⟩ := wrapIn_turns fuel (67860483277 + 1) 858993457 (by decide) d
    have hlast : infTurn wrapIn fuel () ⟨9 + 5 * 858993457, 0, 0, d', 4, false⟩ = .error .src := by
      rw [infTurn_head (by decide) (by decide) rfl]
      simp only [Bind.bind, StateT.bind, Except.bind]
      rw [infStored_wraps rfl rfl]
    rw [repeatM_inl _ hfirst]
    exact hturns.trans (repeatM_error _ hlast)
  unfold inflateRaw
  rw [hfuel]
  exact hturn _

end Makar
