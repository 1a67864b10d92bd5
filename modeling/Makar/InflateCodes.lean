import Makar.Deflate
import Makar.Inflate

/-!
# Bits and codes

What carries the argument about the decompressor through the program is that the positions
are inside the buffers (`InfOk`) and that the bits that are left become fewer (`InfOn`):
every turn of a loop that goes on has taken one.

The tables of a code come from lengths that the input describes, and nothing makes them the
lengths of a prefix code. What `inf_decode` needs is less. `inf_build` sorts the symbols by
their lengths, and `InfHuff.Ok` says that the places of all of them, which are as many as
the counts add up to, are inside the table and written. The walk of `inf_decode` keeps
`first ≤ code`, whatever the counts are, for it goes on only when the code is past the
counted ones; so the place it reads is one of those of its length.
-/

namespace Makar

open Function List Finset Nat

open Checked Deflate

/-- The positions are inside the buffers, and what lies behind the output is as it was. -/
structure InfOk (z : InfIn) (dst : ℕ → UInt8) (s : Inf) : Prop where
  /-- The input. -/
  src : s.srcPos ≤ z.srcLen
  /-- The output. -/
  pos : s.dstPos ≤ z.dstCap
  /-- The bytes behind the output. -/
  rest : ∀ i, z.dstCap ≤ i → s.dst i = dst i

/-- The bits of the input that are left. -/
def Inf.bits (z : InfIn) (s : Inf) : ℕ := 8 * (z.srcLen - s.srcPos) + s.bitcnt

/-- **What every part of the program does**: it stays inside, takes bits and keeps an
error. -/
structure InfOn (z : InfIn) (dst : ℕ → UInt8) (s t : Inf) : Prop where
  /-- It stays inside. -/
  ok : InfOk z dst t
  /-- It takes bits. -/
  bits : t.bits z ≤ s.bits z
  /-- It keeps an error. -/
  error : s.error = true → t.error = true

/-- The sizes leave room for the sums that the source compares with them. -/
structure InfIn.Fits (z : InfIn) : Prop where
  /-- The input. -/
  src : z.srcLen + 65535 < 2 ^ 32
  /-- The output. -/
  dst : z.dstCap + 65535 < 2 ^ 32

variable {z : InfIn} {dst : ℕ → UInt8} {s t u : Inf}

theorem InfOk.on (h : InfOk z dst s) : InfOn z dst s s := ⟨h, le_refl _, id⟩

theorem InfOn.trans (h : InfOn z dst s t) (h' : InfOn z dst t u) : InfOn z dst s u :=
  ⟨h'.ok, h'.bits.trans h.bits, fun he => h'.error (h.error he)⟩

theorem InfOk.setError (h : InfOk z dst s) : InfOn z dst s { s with error := true } :=
  ⟨⟨h.src, h.pos, h.rest⟩, le_refl _, fun _ => rfl⟩

/-! ## Accesses -/

section Access

variable {α : Type} {R : α → Inf → Prop}

theorem returns_infError {g : Unit → InfM α} (h : Returns (g ()) { s with error := true } R) :
    Returns (infError >>= g) s R :=
  Returns.bind (Q := fun _ t => t = { s with error := true })
    (Returns.get ⟨(), _, rfl, rfl⟩) (fun _ t ht => by rw [ht]; exact h)

variable {g : ℕ → InfM α}

theorem returns_srcAt {i : ℕ} (hi : i < z.srcLen) (h : Returns (g (z.src i).toNat) s R) :
    Returns (z.srcAt i >>= g) s R :=
  Returns.bind (Q := fun b t => b = (z.src i).toNat ∧ t = s)
    (Returns.check hi (Returns.pure ⟨rfl, rfl⟩)) (fun b t ht => by rw [ht.1, ht.2]; exact h)

theorem returns_infAt {fault : InfFault} {l : List ℕ} {i : ℕ} (hi : i < l.length)
    (h : Returns (g (l.getD i 0)) s R) : Returns (infAt fault l i >>= g) s R :=
  Returns.bind (Q := fun b t => b = l.getD i 0 ∧ t = s)
    (Returns.check hi (Returns.pure ⟨rfl, rfl⟩)) (fun b t ht => by rw [ht.1, ht.2]; exact h)

theorem returns_countAt {h : InfHuff} {len : ℕ} (hlen : len ≤ infMaxbits)
    (hg : Returns (g (h.count len)) s R) : Returns (h.countAt len >>= g) s R :=
  Returns.bind (Q := fun b t => b = h.count len ∧ t = s)
    (Returns.check hlen (Returns.pure ⟨rfl, rfl⟩)) (fun b t ht => by rw [ht.1, ht.2]; exact hg)

end Access

/-! ## Bits -/

section Bits

theorem infTake_returns (ht : InfOk z dst t) (hcnt : 0 < t.bitcnt) :
    Returns (infTake t) s fun b u => b < 2 ∧ InfOn z dst t u ∧ u.bits z < t.bits z := by
  unfold infTake
  refine Returns.set (Returns.pure ⟨mod_lt _ (by decide), ⟨⟨ht.src, ht.pos, ht.rest⟩, ?_, id⟩,
    ?_⟩)
  · exact Nat.add_le_add_left (Nat.sub_le _ 1) _
  · exact Nat.add_lt_add_left (Nat.sub_lt hcnt Nat.one_pos) _

variable (hz : z.Fits)

include hz

/-- `inf_getbit` takes a bit, unless there is an error. -/
theorem infGetbit_returns (hs : InfOk z dst s) :
    Returns (infGetbit z) s fun b t => b < 2 ∧ InfOn z dst s t
      ∧ (t.error = false → t.bits z < s.bits z) := by
  unfold infGetbit
  refine Returns.get ?_
  refine Returns.ite (fun hcnt => ?_) fun hcnt => ?_
  · split_ifs with hend
    · refine returns_infError (Returns.pure ⟨by decide, hs.setError, ?_⟩)
      exact fun h => nomatch h
    · refine returns_srcAt (Nat.lt_of_not_le hend) ?_
      -- a byte is eight bits, the first of which is taken
      have hlen := hz.src
      have hmod : (s.srcPos + 1) % 2 ^ 32 = s.srcPos + 1 := mod_eq_of_lt (by omega)
      set t : Inf := { s with
        bitbuf := (z.src s.srcPos).toNat, srcPos := (s.srcPos + 1) % 2 ^ 32, bitcnt := 8 } with ht
      have hok : InfOk z dst t := ⟨by rw [ht, hmod]; simp only; omega, hs.pos, hs.rest⟩
      have hbits : t.bits z = s.bits z := by
        simp only [Inf.bits, ht, hmod, hcnt]
        omega
      refine (infTake_returns hok (by simp [ht])).mono ?_
      rintro b u ⟨hb, hon, hlt⟩
      refine ⟨hb, ⟨hon.ok, hbits ▸ hon.bits, hon.error⟩, fun _ => hbits ▸ hlt⟩
  · refine (infTake_returns hs (pos_of_ne_zero hcnt)).mono ?_
    rintro b t ⟨hb, hon, hlt⟩
    exact ⟨hb, hon, fun _ => hlt⟩

/-- `inf_getbits` returns a number of that many bits. -/
theorem infGetbits_returns (hs : InfOk z dst s) (n : ℕ) :
    Returns (infGetbits z n) s fun v t => v < 2 ^ n ∧ InfOn z dst s t := by
  refine Returns.foldlM_range (I := fun i v t => v < 2 ^ i ∧ InfOn z dst s t) n ?_
    ⟨by decide, hs.on⟩
  rintro i v t - ⟨hv, hon⟩
  refine Returns.bind (infGetbit_returns hz hon.ok) ?_
  rintro b u ⟨hb, hon', -⟩
  refine Returns.pure ⟨?_, hon.trans hon'⟩
  have hshift : b <<< i < 2 ^ (i + 1) := by
    rw [shiftLeft_eq, pow_succ, mul_comm]
    exact mul_lt_mul_of_pos_left hb (by positivity)
  exact Nat.or_lt_two_pow (hv.trans (Nat.pow_lt_pow_right (by decide) (Nat.lt_succ_self i))) hshift

end Bits

/-! ## `inf_build` -/

section Build

/-- The first place of the symbols of a length. -/
def codeStart (count : ℕ → ℕ) (l : ℕ) : ℕ := ∑ i ∈ Finset.range l, count i

theorem codeStart_succ (count : ℕ → ℕ) (l : ℕ) :
    codeStart count (l + 1) = codeStart count l + count l := Finset.sum_range_succ count l

theorem codeStart_mono (count : ℕ → ℕ) {l l' : ℕ} (h : l ≤ l') :
    codeStart count l ≤ codeStart count l' :=
  sum_le_sum_of_subset (range_mono h)

variable {count : ℕ → ℕ}

/-- A place before the end is one of a length. -/
theorem exists_length {i l : ℕ} (h : i < codeStart count l) :
    ∃ k < l, codeStart count k ≤ i ∧ i < codeStart count k + count k := by
  induction l with
  | zero => exact absurd h (not_lt_zero i)
  | succ l ih =>
    by_cases hlt : i < codeStart count l
    · obtain ⟨k, hk, hi⟩ := ih hlt
      exact ⟨k, lt_succ_of_lt hk, hi⟩
    · rw [codeStart_succ] at h
      exact ⟨l, Nat.lt_succ_self l, Nat.le_of_not_lt hlt, h⟩

/-- **The tables of a code are in order**: the places of the symbols are inside and
written. -/
structure InfHuff.Ok (h : InfHuff) : Prop where
  /-- No symbol has the length zero. -/
  zero : h.count 0 = 0
  /-- The places are inside. -/
  room : codeStart h.count (infMaxbits + 1) ≤ infMaxcodes
  /-- They are written. -/
  symbols : ∀ i, i < codeStart h.count (infMaxbits + 1) → (h.symbol i).isSome

variable {lengths : List ℕ} {n : ℕ}

variable (hn : n ≤ lengths.length) (hmax : ∀ l ∈ lengths.take n, l ≤ infMaxbits)

include hn hmax

theorem getD_le {i : ℕ} (hi : i < n) : lengths.getD i 0 ≤ infMaxbits := by
  refine hmax _ ?_
  rw [getD_eq_getElem _ _ (hi.trans_le hn)]
  exact mem_take_iff_getElem.2 ⟨i, by omega, rfl⟩

/-- The counts are those of the lengths. -/
theorem infCount_returns : Returns (infCount lengths n) s fun (count : ℕ → ℕ) t =>
    t = s ∧ ∀ l, count l = (lengths.take n).count l := by
  refine Returns.foldlM_range (I := fun i (count : ℕ → ℕ) t => t = s ∧ ∀ l, count l
    = (lengths.take i).count l) n ?_ ⟨rfl, fun l => rfl⟩
  rintro i count t hi ⟨rfl, hcount⟩
  refine returns_infAt (hi.trans_le hn) (Returns.check (getD_le hn hmax hi) (Returns.pure
    ⟨rfl, fun l => ?_⟩))
  rw [take_succ_eq (hi.trans_le hn), count_append, count_singleton]
  by_cases hl : l = lengths.getD i 0
  · subst hl
    rw [update_self, hcount]
    simp
  · rw [update_of_ne hl, hcount, if_neg (by simpa using Ne.symm hl)]
    rfl

omit hn hmax in
/-- The offsets are the first places. -/
theorem infOffs_eq (hzero : count 0 = 0) {l : ℕ} (hl : l ≤ infMaxbits) :
    infOffs count l = codeStart count l := by
  have hfold : ∀ k l, l ≤ k + 1 → (List.range' 1 k).foldl
      (fun offs len => update offs (len + 1) (offs len + count len)) (fun _ => 0) l
        = codeStart count l := by
    intro k
    induction k with
    | zero =>
      intro l hl
      interval_cases l
      · rfl
      · rw [codeStart_succ, hzero]
        rfl
    | succ k ih =>
      intro l hl
      rw [List.range'_concat, foldl_append, foldl_cons, foldl_nil]
      by_cases hlast : l = 1 + 1 * k + 1
      · rw [hlast, update_self, ih _ (by omega), ← codeStart_succ]
      · rw [update_of_ne hlast]
        exact ih l (by omega)
  exact hfold (infMaxbits - 1) l hl

/-- The counts of the lengths that are not zero. -/
def codeCount (l : List ℕ) : ℕ → ℕ := Function.update (fun k => l.count k) 0 0

omit hn hmax in
theorem codeCount_of_ne {l : List ℕ} {k : ℕ} (hk : k ≠ 0) : codeCount l k = l.count k :=
  update_of_ne hk 0 _

omit hn in
/-- There are at most as many places as lengths. -/
theorem codeStart_codeCount_le :
    codeStart (codeCount (lengths.take n)) (infMaxbits + 1) ≤ (lengths.take n).length := by
  have hall : ∑ k ∈ range (infMaxbits + 1), (lengths.take n).count k
      = (lengths.take n).length := by
    have hcard := Multiset.sum_count_eq_card (s := range (infMaxbits + 1))
      (m := (lengths.take n : Multiset ℕ))
      (fun l hl => Finset.mem_range.2 (lt_succ_of_le (hmax l (Multiset.mem_coe.1 hl))))
    simpa only [Multiset.coe_count, Multiset.coe_card] using hcard
  rw [← hall]
  refine Finset.sum_le_sum (fun k _ => ?_)
  by_cases hk : k = 0
  · subst hk
    exact zero_le _
  · exact (codeCount_of_ne hk).le

/-- The place of a symbol: behind those of shorter lengths and the ones of its length before
it. -/
def codePlace (lengths : List ℕ) (count : ℕ → ℕ) (sym : ℕ) : ℕ :=
  codeStart count (lengths.getD sym 0) + (lengths.take sym).count (lengths.getD sym 0)

/-- The symbols before the `i`-th are placed: the offset of every length has moved on by as
many as have it, and each is where it belongs. -/
structure Placed (lengths : List ℕ) (count : ℕ → ℕ) (i : ℕ) (symbol : ℕ → Option ℕ)
    (offs : ℕ → ℕ) : Prop where
  /-- The offsets. -/
  offs : ∀ l, l ≠ 0 → l ≤ infMaxbits → offs l = codeStart count l + (lengths.take i).count l
  /-- The places. -/
  symbol : ∀ sym < i, lengths.getD sym 0 ≠ 0 → symbol (codePlace lengths count sym) = some sym

omit hmax in
/-- A symbol is placed among those of its length. -/
theorem codePlace_lt {sym : ℕ} (hsym : sym < n) (hne : lengths.getD sym 0 ≠ 0) :
    codePlace lengths (codeCount (lengths.take n)) sym
      < codeStart (codeCount (lengths.take n)) (lengths.getD sym 0 + 1) := by
  have hrank := count_take_lt hsym hn
  rw [codeStart_succ, codeCount_of_ne hne]
  exact Nat.add_lt_add_left hrank _

omit hmax in
/-- Two symbols have different places. -/
theorem codePlace_ne {sym i : ℕ} (hsym : sym < i) (hi : i < n) (hne : lengths.getD sym 0 ≠ 0)
    (hne' : lengths.getD i 0 ≠ 0) :
    codePlace lengths (codeCount (lengths.take n)) sym
      ≠ codePlace lengths (codeCount (lengths.take n)) i := by
  have hlt := codePlace_lt hn (hsym.trans hi) hne
  have hlt' := codePlace_lt hn hi hne'
  have hge : ∀ k, codeStart (codeCount (lengths.take n)) (lengths.getD k 0)
      ≤ codePlace lengths (codeCount (lengths.take n)) k := fun k => le_add_right _ _
  rcases lt_trichotomy (lengths.getD sym 0) (lengths.getD i 0) with h | h | h
  · have hmono := codeStart_mono (codeCount (lengths.take n))
      (show lengths.getD sym 0 + 1 ≤ lengths.getD i 0 from h)
    have := hge i
    omega
  · have hrank := count_take_lt hsym (hi.le.trans hn)
    unfold codePlace
    rw [h] at hrank ⊢
    omega
  · have hmono := codeStart_mono (codeCount (lengths.take n))
      (show lengths.getD i 0 + 1 ≤ lengths.getD sym 0 from h)
    have := hge sym
    omega

omit hn hmax in
/-- Every rank below the number of symbols of a length is that of one of them. -/
theorem exists_rank {i l r : ℕ} (hi : i ≤ lengths.length) (hr : r < (lengths.take i).count l) :
    ∃ sym < i, lengths.getD sym 0 = l ∧ (lengths.take sym).count l = r := by
  induction i with
  | zero => exact absurd hr (not_lt_zero r)
  | succ i ih =>
    rw [take_succ_eq hi, count_append, count_singleton] at hr
    by_cases hlt : r < (lengths.take i).count l
    · obtain ⟨sym, hsym, hrank⟩ := ih (by omega) hlt
      exact ⟨sym, lt_succ_of_lt hsym, hrank⟩
    · by_cases hl : lengths.getD i 0 = l
      · rw [if_pos (by simpa using hl)] at hr
        exact ⟨i, lt_succ_self i, hl, by omega⟩
      · rw [if_neg (by simpa using hl)] at hr
        exact absurd hr hlt

/-- **Every symbol gets its place.** -/
theorem infPlace_returns (hcap : n ≤ infMaxcodes) {offs : ℕ → ℕ}
    (hoffs : ∀ l, l ≠ 0 → l ≤ infMaxbits → offs l = codeStart (codeCount (lengths.take n)) l) :
    Returns (infPlace lengths n offs) s fun r t =>
      t = s ∧ Placed lengths (codeCount (lengths.take n)) n r.1 r.2 := by
  refine Returns.foldlM_range (I := fun i (r : (ℕ → Option ℕ) × (ℕ → ℕ)) t =>
    t = s ∧ Placed lengths (codeCount (lengths.take n)) i r.1 r.2) n ?_
    ⟨rfl, ⟨hoffs, fun sym hsym => absurd hsym (not_lt_zero sym)⟩⟩
  rintro i r t hi ⟨rfl, hplaced⟩
  refine returns_infAt (hi.trans_le hn) ?_
  have htake := take_succ_eq (hi.trans_le hn)
  have hle := getD_le hn hmax hi
  have hcount : ∀ k, (lengths.take (i + 1)).count k
      = (lengths.take i).count k + if k = lengths.getD i 0 then 1 else 0 := by
    intro k
    rw [htake, count_append, count_singleton]
    by_cases hk : k = lengths.getD i 0
    · rw [if_pos hk, if_pos (by simpa using hk.symm)]
    · rw [if_neg hk, if_neg (by simpa using Ne.symm hk)]
  by_cases hl : lengths.getD i 0 = 0
  · -- a symbol that is not used
    rw [if_pos hl]
    refine Returns.pure ⟨rfl, fun k hk hk' => ?_, fun sym hsym hne => ?_⟩
    · rw [hcount, if_neg (fun hc => hk (hc.trans hl)), add_zero]
      exact hplaced.offs k hk hk'
    · refine hplaced.symbol sym (Nat.lt_of_le_of_ne (Nat.lt_succ_iff.1 hsym) ?_) hne
      rintro rfl
      exact hne hl
  · rw [if_neg hl]
    have hplace : r.2 (lengths.getD i 0) = codePlace lengths (codeCount (lengths.take n)) i :=
      hplaced.offs _ hl hle
    -- the place is before that of the next length
    have hlt : r.2 (lengths.getD i 0) < infMaxcodes := by
      have hnext := codePlace_lt hn hi hl
      have hend := codeStart_mono (codeCount (lengths.take n))
        (show lengths.getD i 0 + 1 ≤ infMaxbits + 1 by omega)
      have htotal := codeStart_codeCount_le hmax
      have hlen : (lengths.take n).length ≤ n := length_take_le n lengths
      omega
    refine Returns.check hle (Returns.check hlt (Returns.pure ⟨rfl, ?_, ?_⟩))
    · intro k hk hk'
      show update r.2 (lengths.getD i 0) (r.2 (lengths.getD i 0) + 1) k = _
      rw [hcount]
      by_cases hkl : k = lengths.getD i 0
      · subst hkl
        rw [update_self, if_pos rfl, hplaced.offs _ hk hk', add_assoc]
      · rw [update_of_ne hkl, if_neg hkl, add_zero]
        exact hplaced.offs k hk hk'
    · intro sym hsym hne
      show update r.1 (r.2 (lengths.getD i 0)) (some i) _ = _
      rw [hplace]
      by_cases hi' : sym = i
      · subst hi'
        rw [update_self]
      · have hlt' : sym < i := by omega
        rw [update_of_ne (codePlace_ne hn hlt' hi hne hl)]
        exact hplaced.symbol sym hlt' hne

/-- **`inf_build`** makes tables that are in order, of any lengths, with every symbol at its
place. -/
theorem infBuild_returns (hcap : n ≤ infMaxcodes) :
    Returns (infBuild lengths n) s fun h t => t = s ∧ h.Ok
      ∧ h.count = codeCount (lengths.take n)
      ∧ ∀ sym < n, lengths.getD sym 0 ≠ 0 →
        h.symbol (codePlace lengths h.count sym) = some sym := by
  unfold infBuild
  refine Returns.bind (infCount_returns hn hmax) ?_
  rintro count t ⟨rfl, hcount⟩
  have heq : update count 0 0 = codeCount (lengths.take n) := by
    rw [funext hcount]
    rfl
  rw [heq]
  have hzero : codeCount (lengths.take n) 0 = 0 := update_self 0 0 _
  refine Returns.bind (infPlace_returns hn hmax hcap
    (fun l _ hl => infOffs_eq hzero hl)) ?_
  rintro ⟨symbol, offs⟩ u ⟨rfl, hplaced⟩
  refine Returns.pure ⟨rfl, ⟨hzero, ?_, fun i hi => ?_⟩, rfl, hplaced.symbol⟩
  · exact (codeStart_codeCount_le hmax).trans ((length_take_le n lengths).trans hcap)
  · -- the place is one of a length, and of a symbol of that length
    obtain ⟨k, hk, hki, hik⟩ := exists_length (show i < codeStart (codeCount (lengths.take n)) _ from hi)
    have hne : k ≠ 0 := by
      rintro rfl
      rw [hzero] at hik
      omega
    rw [codeCount_of_ne hne] at hik
    obtain ⟨sym, hsym, rfl, hrank⟩ := exists_rank hn
      (show i - codeStart (codeCount (lengths.take n)) k < (lengths.take n).count k by omega)
    have hplace : codePlace lengths (codeCount (lengths.take n)) sym = i := by
      unfold codePlace
      omega
    have hsome := hplaced.symbol sym hsym hne
    rw [hplace] at hsome
    exact Option.isSome_of_eq_some hsome

end Build

/-! ## `inf_decode` -/

variable {h : InfHuff}

theorem returns_symbolAt {i : ℕ} (hh : h.Ok)
    (hi : i < codeStart h.count (infMaxbits + 1)) {Q : ℤ → Inf → Prop} (hQ : ∀ v : ℕ, Q v s) :
    Returns (h.symbolAt i) s Q := by
  unfold InfHuff.symbolAt
  refine Returns.check ⟨Int.natCast_nonneg i, ?_, hh.symbols i hi⟩ (Returns.pure (hQ _))
  exact_mod_cast hi.trans_le hh.room

/-- **The walk through the lengths**: the code is past the counted ones of every shorter
length, so where it is among those of its length there is a symbol. -/
theorem infDecodeFrom_returns (hz : z.Fits) (hh : h.Ok) (n len c first : ℕ)
    (hlen : len + n = infMaxbits + 1) (hpos : 0 < len) (hfirst : first ≤ 2 * c)
    (hs : InfOk z dst s) :
    Returns (infDecodeFrom z h n len (2 * c) first (codeStart h.count len)) s fun sym t =>
      InfOn z dst s t ∧ (t.error = false → 0 ≤ sym ∧ t.bits z < s.bits z) := by
  induction n generalizing len c first s with
  | zero =>
    refine returns_infError (Returns.pure ⟨hs.setError, ?_⟩)
    exact fun hc => nomatch hc
  | succ n ih =>
    refine Returns.bind (infGetbit_returns hz hs) ?_
    rintro b t ⟨hb, hon, htook⟩
    refine returns_countAt (by omega) ?_
    have hcode : 2 * c ||| b = 2 * c + b := by
      have hor := two_pow_add_eq_or_of_lt (i := 1) (b := b) hb c
      rw [pow_one] at hor
      exact hor.symm
    rw [hcode]
    refine Returns.ite (fun hin => ?_) fun hin => ?_
    · have hplace : ((codeStart h.count len : ℕ) : ℤ) + (((2 * c + b : ℕ) : ℤ) - first)
          = ((codeStart h.count len + (2 * c + b - first) : ℕ) : ℤ) := by
        omega
      rw [hplace]
      refine returns_symbolAt hh ?_ (fun v => ⟨hon, fun he => ⟨Int.natCast_nonneg v, htook he⟩⟩)
      have hmono := codeStart_mono h.count (show len + 1 ≤ infMaxbits + 1 by omega)
      rw [codeStart_succ] at hmono
      omega
    · have hshift : ∀ k : ℕ, k <<< 1 = 2 * k := fun k => by rw [shiftLeft_eq, pow_one, mul_comm]
      rw [hshift, hshift, ← codeStart_succ]
      refine (ih (len + 1) (2 * c + b) (2 * (first + h.count len)) (by omega) (by omega)
        (by omega) hon.ok).mono ?_
      rintro sym u ⟨hon', hsym⟩
      exact ⟨hon.trans hon', fun he => ⟨(hsym he).1, (hsym he).2.trans_le hon.bits⟩⟩

/-- **`inf_decode`** takes a bit and returns a symbol, unless there is an error. -/
theorem infDecode_returns (hz : z.Fits) (hh : h.Ok) (hs : InfOk z dst s) :
    Returns (infDecode z h) s fun sym t =>
      InfOn z dst s t ∧ (t.error = false → 0 ≤ sym ∧ t.bits z < s.bits z) := by
  have hone : codeStart h.count 1 = 0 := by
    rw [codeStart_succ, hh.zero]
    rfl
  have hfrom := infDecodeFrom_returns hz hh infMaxbits 1 0 0 rfl one_pos (zero_le _) hs
  rw [hone] at hfrom
  exact hfrom

end Makar
