import Makar.InflateCorrect

/-!
# The decompressor is correct

The descriptions of codes, the blocks, and the stream. `inflateRaw_decodes` is the result: for
every stream whose data fit, `inflate_raw` succeeds and produces the data that the format
assigns to it.

The streams are those that describe at most thirty distance codes. The format allows two more,
which never occur in the data, and the source refuses a description that has them, as other
decompressors do (`inflateRaw_refuses`).
-/

namespace Makar

open List

open Checked Deflate

variable {z : InfIn} {out out' : List UInt8} {p : ℕ} {s t : Inf}

/-! ## The description of a code -/

/-- Code lengths only grow. -/
theorem Deflate.Lengths.length_le {clen ls ls' : List ℕ} {v : List Bool}
    (h : Lengths clen ls v ls') : ls.length ≤ ls'.length := by
  induction h with
  | nil => exact le_rfl
  | length _ _ _ ih | again _ _ _ _ ih | zeros _ _ _ ih | manyZeros _ _ _ ih =>
    rw [length_append] at ih
    omega

/-- A repetition that does not pass the number of lengths. -/
theorem infRepeat_eq {total rep l : ℕ} {ls : List ℕ} (htotal : total ≤ infMaxcodes)
    (hfit : ls.length + rep ≤ total) :
    Returns (infRepeat total rep l ls) s fun r t => t = s ∧ r = ls ++ replicate rep l := by
  refine Returns.foldlM_range (I := fun i (r : List ℕ) t => t = s ∧ r = ls ++ replicate i l)
    rep ?_ ⟨rfl, (append_nil ls).symm⟩
  rintro i r t hi ⟨rfl, rfl⟩
  have hlen : (ls ++ replicate i l).length = ls.length + i := by
    rw [length_append, length_replicate]
  rw [if_pos (by omega)]
  refine Returns.check (by omega) (Returns.pure ⟨rfl, ?_⟩)
  rw [append_assoc, replicate_succ']

section Lengths

variable {clh : InfHuff} {clen : List ℕ} {total : ℕ} (hz : z.srcLen < 2 ^ 32)
  (hdec : Decodes z clh clen 19) (htotal : total ≤ infMaxcodes)

include hz htotal in
/-- The number of times is read, and the length repeated. -/
theorem infRun_reads {bits least l : ℕ} {ls : List ℕ} {x : List Bool} (hx : x.length = bits)
    (hfit : (ls ++ replicate (least + value x) l).length ≤ total) (hat : InfAt z out p s)
    (hreads : Reads z p x) :
    Returns (infRun z total bits least l ls) s fun r t =>
      r = .inl (ls ++ replicate (least + value x) l) ∧ InfAt z out (p + x.length) t := by
  rw [length_append, length_replicate] at hfit
  unfold infRun
  rw [← hx]
  refine Returns.bind (hat.getbits hz hreads) ?_
  rintro _ t ⟨rfl, hat'⟩
  refine Returns.bind (infRepeat_eq htotal hfit) ?_
  rintro _ u ⟨rfl, rfl⟩
  exact Returns.pure ⟨rfl, hat'⟩

include hdec htotal in
/-- A length. -/
theorem infLengthsTurn_length {ls : List ℕ} {l : ℕ} {w : List Bool} (hl : l < 16)
    (henc : Encodes clen l w) (hmore : ls.length < total) (hat : InfAt z out p s)
    (hreads : Reads z p w) :
    Returns (infLengthsTurn z clh total ls) s fun r t =>
      r = .inl (ls ++ [l]) ∧ InfAt z out (p + w.length) t := by
  unfold infLengthsTurn
  rw [if_neg (by omega)]
  refine Returns.bind (hdec l (by omega) w henc out p s hat hreads) ?_
  rintro _ t ⟨rfl, hat'⟩
  refine Returns.get ?_
  rw [hat'.error, if_neg Bool.false_ne_true, if_pos (by omega), Int.toNat_natCast,
    Nat.mod_eq_of_lt (by omega)]
  have hpush : infPush ls l t = .ok (ls ++ [l], t) := by
    unfold infPush check
    rw [if_pos (by omega)]
    rfl
  exact Returns.bind ⟨_, _, hpush, rfl, rfl⟩
    (fun r u (hu : r = ls ++ [l] ∧ u = t) => Returns.pure ⟨by rw [hu.1], by rw [hu.2]; exact hat'⟩)

/-- What a repetition repeats, and how often: the symbol, its bits, the least number of times
and the length. -/
def IsRun (ls : List ℕ) (sym bits least l : ℕ) : Prop :=
  (sym, bits, least, l) = (16, 2, 3, ls.getD (ls.length - 1) 0) ∧ ls ≠ []
    ∨ (sym, bits, least, l) = (17, 3, 3, 0) ∨ (sym, bits, least, l) = (18, 7, 11, 0)

include hz hdec htotal in
/-- A repetition. -/
theorem infLengthsTurn_run {ls : List ℕ} {sym bits least l : ℕ} {w x : List Bool}
    (hsym : IsRun ls sym bits least l) (henc : Encodes clen sym w) (hx : x.length = bits)
    (hmore : (ls ++ replicate (least + value x) l).length ≤ total) (hat : InfAt z out p s)
    (hreads : Reads z p (w ++ x)) :
    Returns (infLengthsTurn z clh total ls) s fun r t =>
      r = .inl (ls ++ replicate (least + value x) l)
        ∧ InfAt z out (p + (w ++ x).length) t := by
  obtain ⟨hrw, hrx⟩ := reads_append.1 hreads
  have hlt : ls.length < total := by
    rw [length_append, length_replicate] at hmore
    rcases hsym with ⟨h, -⟩ | h | h <;> simp only [Prod.mk.injEq] at h <;> omega
  unfold infLengthsTurn
  rw [if_neg (by omega), length_append, ← Nat.add_assoc]
  have hsym' : sym < 19 := by
    rcases hsym with ⟨h, -⟩ | h | h <;> simp only [Prod.mk.injEq] at h <;> omega
  refine Returns.bind (hdec sym hsym' w henc out p s hat hrw) ?_
  rintro _ t ⟨rfl, hat'⟩
  refine Returns.get ?_
  rw [hat'.error, if_neg Bool.false_ne_true]
  have hrun := infRun_reads hz htotal hx hmore hat' hrx
  rcases hsym with ⟨h, hne⟩ | h | h
  · obtain ⟨rfl, rfl, rfl, rfl⟩ := by simpa only [Prod.mk.injEq] using h
    have hlen : ls.length ≠ 0 := fun h0 => hne (length_eq_zero_iff.1 h0)
    rw [if_neg (by decide), if_pos (by decide), if_neg hlen]
    exact returns_infAt (by omega) hrun
  · obtain ⟨rfl, rfl, rfl, rfl⟩ := by simpa only [Prod.mk.injEq] using h
    rw [if_neg (by decide), if_neg (by decide), if_pos (by decide)]
    exact hrun
  · obtain ⟨rfl, rfl, rfl, rfl⟩ := by simpa only [Prod.mk.injEq] using h
    rw [if_neg (by decide), if_neg (by decide), if_neg (by decide)]
    exact hrun

/-- The loop goes on behind a turn that has added lengths. -/
theorem infLengths_turn {ls ls₁ ls' : List ℕ} {w v : List Bool} {n : ℕ}
    (hturn : Returns (infLengthsTurn z clh total ls) s fun r t =>
      r = .inl ls₁ ∧ InfAt z out (p + w.length) t)
    (hrest : ∀ t, InfAt z out (p + w.length) t →
      Returns (repeatM .fuel (infLengthsTurn z clh total) n ls₁) t fun r u =>
        r = some ls' ∧ InfAt z out (p + w.length + v.length) u) :
    Returns (repeatM .fuel (infLengthsTurn z clh total) (n + 1) ls) s fun r t =>
      r = some ls' ∧ InfAt z out (p + (w ++ v).length) t := by
  refine Returns.repeatM_turn (hturn.mono ?_)
  rintro r t ⟨rfl, hat⟩
  rw [length_append, ← Nat.add_assoc]
  exact hrest t hat

include hz hdec htotal in
/-- The same for a repetition. -/
theorem infLengths_run {ls ls' : List ℕ} {sym bits least l n : ℕ} {w x v : List Bool}
    (hsym : IsRun ls sym bits least l) (henc : Encodes clen sym w) (hx : x.length = bits)
    (hrest : Lengths clen (ls ++ replicate (least + value x) l) v ls')
    (hlen : ls'.length = total) (hfuel : total - ls.length < n + 1) (hat : InfAt z out p s)
    (hreads : Reads z p (w ++ (x ++ v)))
    (ih : ∀ {k p t}, total - (ls ++ replicate (least + value x) l).length < k + 1 →
      InfAt z out p t → Reads z p v →
        Returns (repeatM .fuel (infLengthsTurn z clh total) (k + 1)
          (ls ++ replicate (least + value x) l)) t fun r u =>
            r = some ls' ∧ InfAt z out (p + v.length) u) :
    Returns (repeatM .fuel (infLengthsTurn z clh total) (n + 1) ls) s fun r t =>
      r = some ls' ∧ InfAt z out (p + (w ++ (x ++ v)).length) t := by
  have hgrow := hrest.length_le
  have hmany : 0 < least := by
    rcases hsym with ⟨h, -⟩ | h | h <;> simp only [Prod.mk.injEq] at h <;> omega
  have hlen₁ : (ls ++ replicate (least + value x) l).length = ls.length + (least + value x) := by
    rw [length_append, length_replicate]
  rw [← append_assoc] at hreads ⊢
  obtain ⟨hrw, hrv⟩ := reads_append.1 hreads
  refine infLengths_turn (infLengthsTurn_run hz hdec htotal hsym henc hx (by omega) hat hrw)
    (fun t hat' => ?_)
  obtain ⟨k, rfl⟩ := Nat.exists_eq_succ_of_ne_zero (show n ≠ 0 by omega)
  exact ih (by omega) hat' hrv

include hz hdec htotal in
/-- **The loop over the code lengths** reads the lengths that are described. -/
theorem infLengths_reads {ls ls' : List ℕ} {v : List Bool} (h : Lengths clen ls v ls')
    (hlen : ls'.length = total) {fuel : ℕ} (hfuel : total - ls.length < fuel)
    (hat : InfAt z out p s) (hreads : Reads z p v) :
    Returns (repeatM .fuel (infLengthsTurn z clh total) fuel ls) s fun r t =>
      r = some ls' ∧ InfAt z out (p + v.length) t := by
  obtain ⟨n, rfl⟩ := Nat.exists_eq_succ_of_ne_zero (show fuel ≠ 0 by omega)
  induction h generalizing n p s with
  | nil =>
    refine Returns.repeatM_turn ?_
    unfold infLengthsTurn
    rw [if_pos hlen.ge]
    exact Returns.pure ⟨rfl, hat⟩
  | length hl henc hrest ih =>
    have hgrow := hrest.length_le
    rw [length_append, length_singleton] at hgrow
    obtain ⟨hrw, hrv⟩ := reads_append.1 hreads
    refine infLengths_turn (infLengthsTurn_length hdec htotal hl henc (by omega) hat hrw)
      (fun t hat' => ?_)
    obtain ⟨k, rfl⟩ := Nat.exists_eq_succ_of_ne_zero (show n ≠ 0 by omega)
    refine ih hlen hat' hrv k ?_
    rw [length_append, length_singleton]
    omega
  | again henc hx hlast hrest ih =>
    rename_i ls l w x v ls'
    have hne : ls ≠ [] := by
      rintro rfl
      cases hlast
    have hl : ls.getD (ls.length - 1) 0 = l := by
      rw [getD_eq_getElem?_getD, ← getLast?_eq_getElem?, hlast]
      rfl
    exact infLengths_run hz hdec htotal (.inl ⟨by rw [hl], hne⟩) henc hx hrest hlen hfuel hat hreads
      (fun hk hat' hv => ih hlen hat' hv _ hk)
  | zeros henc hx hrest ih =>
    exact infLengths_run hz hdec htotal (.inr (.inl rfl)) henc hx hrest hlen hfuel hat hreads
      (fun hk hat' hv => ih hlen hat' hv _ hk)
  | manyZeros henc hx hrest ih =>
    exact infLengths_run hz hdec htotal (.inr (.inr rfl)) henc hx hrest hlen hfuel hat hreads
      (fun hk hat' hv => ih hlen hat' hv _ hk)

end Lengths

variable {ws : List (List Bool)}

/-- The lengths of the code length code, with one more of them. -/
theorem clenOf_set {i : ℕ} (hi : i < ws.length) (h19 : i < 19) :
    (clenOf (ws.take i)).set (clenOrder.getD i 0) (value (ws.getD i []))
      = clenOf (ws.take (i + 1)) := by
  have hinv : ∀ j < 19, ∀ i < 19, clenOrder.getD i 0 = j ↔ clenOrder.idxOf j = i := by decide
  refine ext_getElem (by simp [clenOf]) (fun j hj hj' => ?_)
  have hj19 : j < 19 := by simpa [clenOf] using hj'
  rw [getElem_set]
  simp only [clenOf, getElem_map, getElem_range]
  split_ifs with hat
  · rw [(hinv j hj19 i h19).1 hat]
    simp [getD_eq_getElem?_getD]
  · have hne : clenOrder.idxOf j ≠ i := fun hc => hat ((hinv j hj19 i h19).2 hc)
    by_cases hlt : clenOrder.idxOf j < i
    · rw [getD_eq_getElem?_getD, getD_eq_getElem?_getD,
        getElem?_take_of_lt hlt, getElem?_take_of_lt (by omega)]
    · rw [getD_eq_default _ _ (by rw [length_take]; omega),
        getD_eq_default _ _ (by rw [length_take]; omega)]

section

variable {ws : List (List Bool)} {n : ℕ} (hn : ∀ b ∈ ws, b.length = n)
include hn

/-- The bits of a list of words of one length. -/
theorem Reads.getD_flatten (h : Reads z p ws.flatten) {i : ℕ} (hi : i < ws.length) :
    Reads z (p + n * i) (ws.getD i []) := by
  induction ws generalizing p i with
  | nil => exact absurd hi (Nat.not_lt_zero i)
  | cons b ws ih =>
    rw [flatten_cons] at h
    obtain ⟨hb, hrest⟩ := reads_append.1 h
    rw [hn b mem_cons_self] at hrest
    cases i with
    | zero => exact hb
    | succ i =>
      have := ih (fun c hc => hn c (mem_cons_of_mem b hc)) hrest (Nat.lt_of_succ_lt_succ hi)
      rw [getD_cons_succ, show p + n * (i + 1) = p + n + n * i by ring]
      exact this

theorem length_flatten_of : ws.flatten.length = n * ws.length := by
  induction ws with
  | nil => rfl
  | cons b ws ih =>
    rw [flatten_cons, length_append, hn b mem_cons_self,
      ih (fun c hc => hn c (mem_cons_of_mem b hc)), length_cons]
    ring

end

section

variable (hz : z.srcLen < 2 ^ 32)
include hz

/-- **The lengths of the code length code** are those that are given. -/
theorem infClen_reads (h19 : ws.length ≤ 19) (hws : ∀ b ∈ ws, b.length = 3) (hat : InfAt z out p s)
    (hreads : Reads z p ws.flatten) :
    Returns (infClen z ws.length) s fun clen t =>
      clen = clenOf ws ∧ InfAt z out (p + ws.flatten.length) t := by
  refine (Returns.foldlM_range (I := fun i (clen : List ℕ) t => clen = clenOf (ws.take i)
    ∧ InfAt z out (p + 3 * i) t) ws.length ?_ ⟨by rw [take_zero]; decide, hat⟩).mono ?_
  · rintro i clen t hi ⟨rfl, hat'⟩
    have horder : ∀ i < 19, clenOrder.getD i 0 < 19 := by decide
    refine returns_infAt (by rw [tables.2.2.2.2]; omega) ?_
    have hlen : (ws.getD i []).length = 3 := by
      rw [getD_eq_getElem _ _ hi]
      exact hws _ (getElem_mem hi)
    have hbits := hat'.getbits hz (Reads.getD_flatten hws hreads hi)
    rw [hlen] at hbits
    refine Returns.bind hbits ?_
    rintro _ u ⟨rfl, hat''⟩
    refine Returns.check (horder i (by omega)) (Returns.pure ⟨?_, ?_⟩)
    · exact clenOf_set hi (by omega)
    · rw [show p + 3 * (i + 1) = p + 3 * i + 3 by ring]
      exact hat''
  · rintro clen t ⟨rfl, hat'⟩
    rw [take_length, length_flatten_of hws]
    exact ⟨rfl, hat'⟩

/-- A field is read, and the program goes on with its number. -/
theorem InfAt.bind_getbits {α : Type} {n : ℕ} {w v : List Bool} {g : ℕ → InfM α}
    {R : α → Inf → Prop} (hat : InfAt z out p s) (hw : w.length = n) (hreads : Reads z p (w ++ v))
    (hg : ∀ t, InfAt z out (p + w.length) t → Reads z (p + w.length) v → Returns (g (value w)) t R) :
    Returns (infGetbits z n >>= g) s R := by
  subst hw
  obtain ⟨hw, hv⟩ := reads_append.1 hreads
  refine Returns.bind (hat.getbits hz hw) ?_
  rintro _ t ⟨rfl, hat'⟩
  exact hg t hat' hv

/-- **`inf_dynamic`** makes the tables of the codes that are described. -/
theorem infDynamic_reads {hlit hdist hclen v : List Bool} {lit dist : List ℕ} (h₁ : hlit.length = 5)
    (h₂ : hdist.length = 5) (h₃ : hclen.length = 4) (hmaxl : value hlit + 257 ≤ 286)
    (hmaxd : value hdist + 1 ≤ 30) (hlen : ws.length = value hclen + 4)
    (hws : ∀ b ∈ ws, b.length = 3) (hclc : IsCode (clenOf ws))
    (hlengths : Lengths (clenOf ws) [] v (lit ++ dist)) (hl : lit.length = value hlit + 257)
    (hd : dist.length = value hdist + 1) (hcl : IsCode lit) (hcd : IsCode dist)
    (hat : InfAt z out p s) (hreads : Reads z p (hlit ++ (hdist ++ (hclen ++ (ws.flatten ++ v))))) :
    Returns (infDynamic z) s fun r t => (∃ h, r = some h ∧ h.1.Tables lit ∧ h.2.Tables dist)
      ∧ InfAt z out (p + (hlit ++ (hdist ++ (hclen ++ (ws.flatten ++ v)))).length) t := by
  have hlt : value hclen < 2 ^ hclen.length := value_lt hclen
  rw [h₃] at hlt
  unfold infDynamic
  refine hat.bind_getbits hz h₁ hreads fun t₁ hat₁ hreads => ?_
  refine hat₁.bind_getbits hz h₂ hreads fun t₂ hat₂ hreads => ?_
  refine hat₂.bind_getbits hz h₃ hreads fun t₃ hat₃ hreads => ?_
  obtain ⟨hr₄, hrv⟩ := reads_append.1 hreads
  rw [if_neg (by unfold infMaxlcodes infMaxdcodes; omega), ← hlen]
  refine Returns.bind (infClen_reads hz (by omega) hws hat₃ hr₄) ?_
  rintro _ t₄ ⟨rfl, hat₄⟩
  have hlen19 : (clenOf ws).length = 19 := by simp [clenOf]
  refine Returns.bind (infBuild_tables (take_of_length_le hlen19.le) hlen19 hclc.short
    (by decide)) ?_
  rintro clh t₅ ⟨rfl, hclh⟩
  have htotal : value hlit + 257 + (value hdist + 1) ≤ infMaxcodes := by
    unfold infMaxcodes infMaxlcodes infMaxdcodes
    omega
  refine Returns.bind (infLengths_reads hz (hclh.decodes hz hclc 19) htotal hlengths
    (by rw [length_append]; omega) (by rw [length_nil]; omega) hat₄ hrv) ?_
  rintro _ t₆ ⟨rfl, hat₆⟩
  refine Returns.get ?_
  rw [hat₆.error, if_neg Bool.false_ne_true]
  refine Returns.bind (infBuild_tables (l := lit ++ dist) (by rw [← hl, take_left]) hl
    hcl.short (by unfold infMaxcodes infMaxlcodes; omega)) ?_
  rintro lh t₇ ⟨rfl, hlh⟩
  refine Returns.bind (infBuild_tables (l := (lit ++ dist).drop (value hlit + 257))
    (by rw [← hl, drop_left, ← hd, take_length]) hd hcd.short
    (by unfold infMaxcodes infMaxdcodes; omega)) ?_
  rintro dh t₈ ⟨rfl, hdh⟩
  refine Returns.pure ⟨⟨(lh, dh), rfl, hlh, hdh⟩, ?_⟩
  simp only [length_append] at hat₆ ⊢
  rw [show p + (hlit.length + (hdist.length + (hclen.length + (ws.flatten.length + v.length))))
    = p + hlit.length + hdist.length + hclen.length + ws.flatten.length + v.length by omega]
  exact hat₆

/-- **`inf_fixed`** makes the tables of the fixed code. The source leaves out the two distance
codes that never occur. -/
theorem infFixed_reads : Returns infFixed s fun h t => t = s
    ∧ Decodes z h.1 fixedLit 286 ∧ Decodes z h.2 fixedDist 30 := by
  have hlit : IsCode fixedLit := by decide +kernel
  have hdist : IsCode (replicate 30 5) := by decide +kernel
  unfold infFixed
  have htake : infFixedLengths.take 288 = fixedLit := by decide +kernel
  have htake' : (replicate 30 5 ++ infFixedLengths.drop 30).take 30 = replicate 30 5 := by
    decide +kernel
  refine Returns.bind (infBuild_tables htake (by decide +kernel) hlit.short (by decide)) ?_
  rintro lh t ⟨rfl, hlh⟩
  refine Returns.bind (infBuild_tables htake' (by decide) hdist.short (by decide)) ?_
  rintro dh u ⟨rfl, hdh⟩
  refine Returns.pure ⟨rfl, hlh.decodes hz hlit 286, fun sym hsym w henc => ?_⟩
  -- a word of the code with 32 symbols is one of that with 30
  have hword : ∀ sym < 30, (replicate 30 5).getD sym 0 = fixedDist.getD sym 0
      ∧ firstCode (replicate 30 5) (fixedDist.getD sym 0)
        = firstCode fixedDist (fixedDist.getD sym 0)
      ∧ ((replicate 30 5).take sym).count (fixedDist.getD sym 0)
        = (fixedDist.take sym).count (fixedDist.getD sym 0) := by
    decide +kernel
  obtain ⟨hlen, hfirst, hrank⟩ := hword sym hsym
  have henc' : Encodes (replicate 30 5) sym w :=
    ⟨by rw [length_replicate]; exact hsym, by rw [hlen]; exact henc.used,
      by rw [hlen, hfirst, hrank]; exact henc.word⟩
  exact hdh.decodes hz hdist 30 sym hsym w henc'

end

/-! ## Stored blocks -/

/-- **`inf_stored`** copies the bytes of the block, from the next byte of the input on. -/
theorem infStored_reads (hz : z.srcLen < 2 ^ 32) (hcap : z.dstCap < 2 ^ 32)
    {pad len : List Bool} {data : List (List Bool)} (hpad : pad.length < 8)
    (halign : 8 ∣ p + pad.length) (hlen : len.length = 16) (hdata : data.length = value len)
    (hbytes : ∀ b ∈ data, b.length = 8) (hroom : (out ++ data.map byteOf).length ≤ z.dstCap)
    (hat : InfAt z out p s)
    (hreads : Reads z p (pad ++ (len ++ (len.map not ++ data.flatten)))) :
    Returns (infStored z) s fun rc t => rc = 0
      ∧ InfAt z (out ++ data.map byteOf)
        (p + (pad ++ (len ++ (len.map not ++ data.flatten))).length) t := by
  obtain ⟨-, hreads'⟩ := reads_append.1 hreads
  obtain ⟨hrlen, hreads'⟩ := reads_append.1 hreads'
  obtain ⟨-, hrdata⟩ := reads_append.1 hreads'
  have hin := hreads.le hat.le
  have hflat := length_flatten_of hbytes
  simp only [length_append, length_map, hlen, hflat, hdata] at hin hrdata hroom
  have hpos := hat.pos
  have hcnt := hat.cnt
  have hdst := hat.len
  -- the next byte is where the padding ends
  obtain ⟨q, hq⟩ := halign
  have hsrc : s.srcPos = q := by omega
  rw [hq] at hrlen hrdata
  -- the number of bytes
  have hword : (z.src q).toNat ||| (z.src (q + 1)).toNat <<< 8 = value len := by
    have hsplit : len = len.take 8 ++ len.drop 8 := (take_append_drop 8 len).symm
    have hlow : (len.take 8).length = 8 := by rw [length_take]; omega
    have hhigh : (len.drop 8).length = 8 := by rw [length_drop]; omega
    rw [hsplit] at hrlen
    obtain ⟨hr₀, hr₁⟩ := reads_append.1 hrlen
    rw [hlow, show 8 * q + 8 = 8 * (q + 1) by ring] at hr₁
    rw [hsplit, value_append, hr₀.value_byte hlow, hr₁.value_byte hhigh, hlow, Nat.or_comm,
      Nat.shiftLeft_eq, mul_comm, ← Nat.two_pow_add_eq_or_of_lt (z.src q).toNat_lt, add_comm]
  have hfour : (q + 4) % 2 ^ 32 = q + 4 := Nat.mod_eq_of_lt (by omega)
  have hone : (q + 1) % 2 ^ 32 = q + 1 := Nat.mod_eq_of_lt (by omega)
  have hsum : (q + 4 + value len) % 2 ^ 32 = q + 4 + value len := Nat.mod_eq_of_lt (by omega)
  have hsum' : (s.dstPos + value len) % 2 ^ 32 = s.dstPos + value len :=
    Nat.mod_eq_of_lt (by omega)
  unfold infStored
  refine Returns.get (Returns.set ?_)
  rw [hsrc, hfour, hone, if_neg (by omega)]
  refine returns_srcAt (by omega) (returns_srcAt (by omega) (Returns.set ?_))
  rw [hword, hsum, if_neg (by omega), hsum', if_neg (by omega)]
  refine Returns.bind (infMemcpy_returns (by omega) (by omega)) ?_
  rintro _ t rfl
  refine Returns.get (Returns.set (Returns.pure ⟨rfl, ?_⟩))
  simp only [length_append, length_map, hlen, hflat, hdata]
  refine ⟨hat.error, (by decide : (0 : ℕ) < 8), ?_, ?_, fun h0 => absurd rfl h0, ?_, fun i hi => ?_⟩
  · show 8 * (q + 4 + value len) = _ + 0
    omega
  · show q + 4 + value len ≤ z.srcLen
    omega
  · show (s.dstPos + value len) % 2 ^ 32 = _
    rw [hsum', hdst, length_append, length_map, hdata]
  · rw [length_append, length_map, hdata] at hi
    show (if s.dstPos ≤ i ∧ i < s.dstPos + value len then z.src (q + 4 + (i - s.dstPos))
      else s.dst i) = _
    by_cases hnew : out.length ≤ i
    · rw [if_pos (by omega), getD_append_right _ _ _ _ hnew, hdst]
      have hk : i - out.length < data.length := by omega
      have hrb := Reads.getD_flatten hbytes hrdata hk
      rw [show 8 * q + 16 + 16 + 8 * (i - out.length) = 8 * (q + 4 + (i - out.length)) by ring]
        at hrb
      have hbyte := hrb.value_byte (by
        rw [getD_eq_getElem _ _ hk]
        exact hbytes _ (getElem_mem hk))
      rw [getD_eq_getElem _ _ (by rw [length_map]; exact hk), getElem_map, byteOf,
        ← getD_eq_getElem _ [] hk, hbyte, UInt8.ofNat_toNat]
    · rw [if_neg (by omega), getD_append _ _ _ _ (by omega)]
      exact hat.dst i (by omega)

/-! ## `inflate_raw` -/

/-- The end of a block that has succeeded. -/
theorem infNext_done (hat : InfAt z out p s) (last : Bool) {q : ℕ} (hq : p = q) :
    Returns (infNext last.toNat 0) s fun r t =>
      r = (if last then .inr 0 else .inl ()) ∧ InfAt z out q t := by
  subst hq
  refine Returns.get ?_
  rw [if_neg (by decide), hat.error]
  cases last with
  | true => exact Returns.pure ⟨rfl, hat⟩
  | false => exact Returns.pure ⟨rfl, hat⟩

variable {w : List Bool}

/-- The data of a block only grow. -/
theorem Deflate.Block.length_le {dmax pos : ℕ} (h : Block dmax pos out w out') :
    out.length ≤ out'.length := by
  cases h with
  | stored _ _ _ _ _ =>
    rw [length_append]
    exact Nat.le_add_right _ _
  | fixed hitems => exact hitems.length_le
  | dynamic _ _ _ _ _ _ _ _ _ _ _ _ _ hitems => exact hitems.length_le

/-- So do those of a stream. -/
theorem stream_length_le {dmax pos : ℕ} (h : Stream dmax pos out w out') :
    out.length ≤ out'.length := by
  induction h with
  | last hblock => exact hblock.length_le
  | more hblock _ ih => exact hblock.length_le.trans ih

/-- **A turn of `inflate_raw`** produces the data of a block. -/
theorem infTurn_reads (hz : z.srcLen < 2 ^ 32) (hcap : z.dstCap < 2 ^ 32) {last : Bool}
    (hblock : Block infMaxdcodes (p + 1) out w out') (hroom : out'.length ≤ z.dstCap) {fuel : ℕ}
    (hfuel : 8 * z.srcLen < fuel) (hat : InfAt z out p s) (hreads : Reads z p (last :: w)) :
    Returns (infTurn z fuel ()) s fun r t =>
      r = (if last then .inr 0 else .inl ()) ∧ InfAt z out' (p + 1 + w.length) t := by
  obtain ⟨hin, hlast, hreads⟩ := hreads
  unfold infTurn
  refine Returns.bind (hat.getbit hz hin) ?_
  rintro _ t₁ ⟨rfl, hat₁⟩
  rw [hlast]
  have hle : ∀ {q : ℕ} {v : List Bool} {u : Inf} {o : List UInt8}, InfAt z o q u → Reads z q v →
      v.length ≤ fuel := by
    intro q v u o hat' hr
    have := hr.le hat'.le
    omega
  cases hblock with
  | stored hpad halign hlen hdata hbytes =>
    refine hat₁.bind_getbits hz rfl hreads fun t hat₂ hr => Returns.get ?_
    rw [hat₂.error, if_neg Bool.false_ne_true, if_pos (by decide)]
    refine Returns.bind (infStored_reads hz hcap hpad halign hlen hdata hbytes hroom hat₂ hr) ?_
    rintro _ u ⟨rfl, hat₃⟩
    exact infNext_done hat₃ last (by simp only [length_append, Nat.add_assoc]; rfl)
  | fixed hitems =>
    refine hat₁.bind_getbits hz rfl hreads fun t hat₂ hr => Returns.get ?_
    rw [hat₂.error, if_neg Bool.false_ne_true, if_neg (by decide), if_pos (by decide)]
    refine Returns.bind (infFixed_reads hz) ?_
    rintro h u ⟨rfl, hlh, hdh⟩
    refine Returns.bind (infBlock_reads hz hcap hlh hdh hitems hroom (hle hat₂ hr) hat₂ hr) ?_
    rintro _ u ⟨rfl, hat₃⟩
    exact infNext_done hat₃ last (by rw [length_append, ← Nat.add_assoc])
  | dynamic h₁ h₂ h₃ hmaxl hmaxd hlen hws hclc hlengths hl hd hcl hcd hitems =>
    refine hat₁.bind_getbits hz rfl hreads fun t hat₂ hr => Returns.get ?_
    rw [hat₂.error, if_neg Bool.false_ne_true, if_neg (by decide), if_neg (by decide), if_pos (by decide)]
    rename_i hlit hdist hclen ws v lit dist w
    have hsplit : hlit ++ (hdist ++ (hclen ++ (ws.flatten ++ (v ++ w))))
        = hlit ++ (hdist ++ (hclen ++ (ws.flatten ++ v))) ++ w := by
      simp only [append_assoc]
    rw [hsplit] at hr ⊢
    obtain ⟨hrd, hrw⟩ := reads_append.1 hr
    refine Returns.bind (infDynamic_reads hz h₁ h₂ h₃ hmaxl hmaxd hlen hws hclc hlengths hl hd hcl
      hcd hat₂ hrd) ?_
    rintro _ u ⟨⟨h, rfl, hlh, hdh⟩, hat₃⟩
    refine Returns.bind (infBlock_reads hz hcap (hlh.decodes hz hcl 286) (hdh.decodes hz hcd 30)
      hitems hroom (hle hat₃ hrw) hat₃ hrw) ?_
    rintro _ u ⟨rfl, hat₄⟩
    exact infNext_done hat₄ last (by simp only [length_append, Nat.add_assoc])

/-- **The loop over the blocks** produces the data of a stream. -/
theorem infTurns_reads (hz : z.srcLen < 2 ^ 32) (hcap : z.dstCap < 2 ^ 32)
    (hstream : Stream infMaxdcodes p out w out') (hroom : out'.length ≤ z.dstCap) {fuel n : ℕ}
    (hfuel : 8 * z.srcLen < fuel) (hn : w.length ≤ n) (hat : InfAt z out p s)
    (hreads : Reads z p w) :
    Returns (repeatM .fuel (infTurn z fuel) n ()) s fun rc t =>
      rc = 0 ∧ InfAt z out' (p + w.length) t := by
  induction hstream generalizing n s with
  | last hblock =>
    rw [length_cons] at hn
    obtain ⟨k, rfl⟩ := Nat.exists_eq_succ_of_ne_zero (show n ≠ 0 by omega)
    refine Returns.repeatM_turn ((infTurn_reads hz hcap hblock hroom hfuel hat hreads).mono ?_)
    rintro r t ⟨rfl, hat'⟩
    rw [length_cons, Nat.add_comm _ 1, ← Nat.add_assoc]
    exact ⟨rfl, hat'⟩
  | more hblock hrest ih =>
    have hgrow : _ ≤ _ := stream_length_le hrest
    rw [length_cons, length_append] at hn
    obtain ⟨k, rfl⟩ := Nat.exists_eq_succ_of_ne_zero (show n ≠ 0 by omega)
    obtain ⟨hrw, hrv⟩ := (reads_append (w := _ :: _)).1 hreads
    refine Returns.repeatM_turn ((infTurn_reads hz hcap hblock (hgrow.trans hroom) hfuel hat
      hrw).mono ?_)
    rintro r t ⟨rfl, hat'⟩
    rw [length_cons, Nat.add_comm _ 1, ← Nat.add_assoc] at hrv
    rw [length_cons, length_append, Nat.add_comm _ 1, ← Nat.add_assoc, ← Nat.add_assoc]
    exact ih hroom (by omega) hat' hrv

/-- The bits of a byte string are those of the input. -/
theorem reads_of_isPrefix {bytes : List UInt8} {cap : ℕ} (h : w <+: bits bytes) :
    Reads ⟨fun i => bytes.getD i 0, bytes.length, cap⟩ 0 w := by
  have hget : ∀ i < w.length, i < 8 * bytes.length ∧ bitAt bytes i = w.getD i false := by
    intro i hi
    have hlen := h.length_le
    have hlt : i < (bits bytes).length := hi.trans_le hlen
    have hin : i < 8 * bytes.length := by simpa [bits] using hlt
    rw [getD_eq_getElem _ _ hi, h.getElem hi]
    refine ⟨hin, ?_⟩
    simp [bits]
  have hreads : ∀ (v : List Bool) p, (∀ i < v.length, p + i < 8 * bytes.length
      ∧ bitAt bytes (p + i) = v.getD i false) →
        Reads ⟨fun i => bytes.getD i 0, bytes.length, cap⟩ p v := by
    intro v
    induction v with
    | nil => exact fun _ _ => trivial
    | cons b v ih =>
      intro p hv
      obtain ⟨hin, hbit⟩ := hv 0 (Nat.succ_pos _)
      refine ⟨hin, hbit, ih (p + 1) (fun i hi => ?_)⟩
      have := hv (i + 1) (Nat.succ_lt_succ hi)
      rw [getD_cons_succ, show p + (i + 1) = p + 1 + i by omega] at this
      exact this
  exact hreads w 0 (fun i hi => by rw [Nat.zero_add]; exact hget i hi)

/-- **`inflate_raw` decodes every stream.** For every byte string that holds a stream of
RFC 1951 with at most thirty distance codes in every description, of any blocks, lengths and
distances, if the data of the stream fit the destination, then `inflate_raw` returns zero and
what it has produced is the data, with more fuel than the string has bits. -/
theorem inflateRaw_decodes (bytes out : List UInt8) (cap : ℕ) (dst : ℕ → UInt8) (fuel : ℕ)
    (hbytes : bytes.length < 2 ^ 32) (hcap : cap < 2 ^ 32) (hholds : Holds infMaxdcodes bytes out)
    (hfits : out.length ≤ cap) (hfuel : 8 * bytes.length < fuel) :
    ∃ s, inflateRaw ⟨fun i => bytes.getD i 0, bytes.length, cap⟩ dst fuel = .ok (0, s)
      ∧ (range s.dstPos).map s.dst = out := by
  obtain ⟨w, hstream, hprefix⟩ := hholds
  have hreads : Reads ⟨fun i => bytes.getD i 0, bytes.length, cap⟩ 0 w := reads_of_isPrefix hprefix
  have hstart : InfAt ⟨fun i => bytes.getD i 0, bytes.length, cap⟩ [] 0 ⟨0, 0, 0, dst, 0, false⟩ :=
    ⟨rfl, (by decide : (0 : ℕ) < 8), rfl, Nat.zero_le _, fun h => absurd rfl h, rfl,
      fun i hi => absurd hi (Nat.not_lt_zero i)⟩
  have hle : w.length ≤ fuel := by
    have hlen := hprefix.length_le
    have : (bits bytes).length = 8 * bytes.length := by simp [bits]
    omega
  obtain ⟨rc, s, hrun, rfl, hat⟩ := infTurns_reads hbytes hcap hstream hfits hfuel hle hstart hreads
  refine ⟨s, hrun, ext_getElem ?_ (fun i hi hi' => ?_)⟩
  · rw [length_map, length_range, hat.len]
  · rw [getElem_map, getElem_range, hat.dst i hi', getD_eq_getElem _ _ hi']

/-- A byte and the end of the block in the fixed code. -/
theorem inflateRaw_decodes_fixed : Holds infMaxdcodes [0x73, 0x04, 0x00] [0x41]
    ∧ ∃ s, inflateRaw ⟨fun i => [0x73, 0x04, 0x00].getD i 0, 3, 4⟩ (fun _ => 0) 25 = .ok (0, s)
      ∧ (range s.dstPos).map s.dst = [0x41] := by
  have hholds : Holds infMaxdcodes [0x73, 0x04, 0x00] [0x41] := by
    refine ⟨_, .last (.fixed (.byte (show 65 < 256 by decide) ⟨by decide +kernel, by decide +kernel,
      rfl⟩ (.stop ⟨by decide +kernel, by decide +kernel, rfl⟩))), by decide +kernel⟩
  exact ⟨hholds, inflateRaw_decodes [0x73, 0x04, 0x00] [0x41] 4 (fun _ => 0) 25 (by decide)
    (by decide) hholds (by decide) (by decide)⟩

/-! ## The distance codes that never occur -/

/-- A stream that describes 31 distance codes: a byte in a code of two symbols. -/
def manyDist : List UInt8 := [0x05, 0xDE, 0x81, 0x00, 0x00, 0x00, 0x00, 0x00, 0x10, 0xFF, 0xD5, 0x28, 0x11]

/-- The lengths of its code length code: the symbols 1 and 18 have a bit each. -/
def manyDistClen : List (List Bool) :=
  replicate 2 [false, false, false] ++ [[true, false, false]]
    ++ replicate 14 [false, false, false] ++ [[true, false, false]]

/-- Its code lengths: two of one bit for the bytes, and two for the distances. -/
def manyDistLengths : List ℕ :=
  [] ++ [1] ++ replicate (11 + value [true, true, true, true, true, true, true]) 0
    ++ replicate (11 + value [false, true, false, true, false, true, true]) 0 ++ [1] ++ [1] ++ [1]
    ++ replicate (11 + value [false, true, false, false, true, false, false]) 0

/-- **A description of 31 distance codes is refused**, though the format allows it. -/
theorem inflateRaw_refuses : Holds maxDistCodes manyDist [0] ∧
    (inflateRaw ⟨fun i => manyDist.getD i 0, manyDist.length, 16⟩ (fun _ => 0) 200).toOption.map
      (fun r => r.1) = some (-1) := by
  refine ⟨?_, by decide +kernel⟩
  have hlengths : Lengths (clenOf manyDistClen) [] ([false] ++ ([true] ++ ([true, true, true, true, true, true, true]
      ++ ([true] ++ ([false, true, false, true, false, true, true] ++ ([false] ++ ([false] ++ ([false]
        ++ ([true] ++ ([false, true, false, false, true, false, false] ++ [])))))))))) manyDistLengths := by
    have hone : Encodes (clenOf manyDistClen) 1 [false] :=
      ⟨by decide +kernel, by decide +kernel, by decide +kernel⟩
    have hzeros : Encodes (clenOf manyDistClen) 18 [true] :=
      ⟨by decide +kernel, by decide +kernel, by decide +kernel⟩
    exact .length (by decide) hone (.manyZeros hzeros rfl (.manyZeros hzeros rfl
      (.length (by decide) hone (.length (by decide) hone (.length (by decide) hone
        (.manyZeros hzeros rfl .nil))))))
  have hsplit : manyDistLengths
      = ([1] ++ replicate 255 0 ++ [1]) ++ ([1, 1] ++ replicate 29 0) := by
    decide +kernel
  rw [hsplit] at hlengths
  have hitems : Items ([1] ++ replicate 255 0 ++ [1]) ([1, 1] ++ replicate 29 0) []
      ([false] ++ [true]) [0] :=
    .byte (show 0 < 256 by decide)
      ⟨by decide +kernel, by decide +kernel, by decide +kernel⟩
      (.stop ⟨by decide +kernel, by decide +kernel, by decide +kernel⟩)
  refine ⟨_, .last (.dynamic (rfl : [false, false, false, false, false].length = 5)
    (rfl : [false, true, true, true, true].length = 5) (rfl : [false, true, true, true].length = 4)
    (by decide) (by decide) (by decide) (by decide) (by decide +kernel) hlengths
    (by decide +kernel) (by decide +kernel) (by decide +kernel) (by decide +kernel) hitems),
    by decide +kernel⟩

end Makar
