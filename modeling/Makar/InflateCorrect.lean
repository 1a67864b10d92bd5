import Makar.InflateSafe

/-!
# The data of a block

`inflate_raw` against the format of RFC 1951 (`Deflate`). The decompressor keeps a position in
a byte and a few bits in hand; what the proof needs of that is where in the bits of the input
it stands and which data it has produced (`InfAt`). Every part of the program is then a rule
about one construct of the grammar: if the input has the bits of the construct at the position,
the part returns what the construct stands for, and the position is behind them.

The one step that is not bookkeeping is `inf_decode`. It never sees a code word; it walks
through the lengths with the first word of each, and the words of the shorter lengths leave
exactly that much room before it (`firstCode_le`), so that the walk cannot stop before it has
read the whole word.
-/

namespace Makar

open List Function Nat

open Checked Deflate

variable {z : InfIn} {out out' : List UInt8} {p : ℕ} {s t : Inf}

/-- The bit of the input at a position. -/
def InfIn.bitAt (z : InfIn) (p : ℕ) : Bool := (z.src (p / 8)).toNat.testBit (p % 8)

/-- **The state stands at a position**, and has produced the data. -/
structure InfAt (z : InfIn) (out : List UInt8) (p : ℕ) (s : Inf) : Prop where
  /-- There is no error. -/
  error : s.error = false
  /-- Less than a byte is in hand. -/
  cnt : s.bitcnt < 8
  /-- What is in hand comes before the next byte. -/
  pos : 8 * s.srcPos = p + s.bitcnt
  /-- The next byte is inside, or the input is at its end. -/
  src : s.srcPos ≤ z.srcLen
  /-- What is in hand is the rest of the byte before. -/
  buf : s.bitcnt ≠ 0 → s.bitbuf = (z.src (s.srcPos - 1)).toNat / 2 ^ (8 - s.bitcnt)
  /-- As many bytes are produced as there are data. -/
  len : s.dstPos = out.length
  /-- They are the data. -/
  dst : ∀ i < out.length, s.dst i = out.getD i 0

/-- The input has the bits at the position. -/
def Reads (z : InfIn) : ℕ → List Bool → Prop
  | _, [] => True
  | p, b :: w => p < 8 * z.srcLen ∧ z.bitAt p = b ∧ Reads z (p + 1) w

theorem reads_append {w v : List Bool} :
    Reads z p (w ++ v) ↔ Reads z p w ∧ Reads z (p + w.length) v := by
  induction w generalizing p with
  | nil => simp [Reads]
  | cons b w ih =>
    simp only [cons_append, Reads, ih, length_cons, and_assoc]
    rw [show p + 1 + w.length = p + (w.length + 1) by omega]

variable {w : List Bool}

/-- The bits that are read are inside. -/
theorem Reads.le (h : Reads z p w) (hp : p ≤ 8 * z.srcLen) : p + w.length ≤ 8 * z.srcLen := by
  induction w generalizing p with
  | nil => exact hp
  | cons b w ih =>
    have := ih h.2.2 h.1
    rw [length_cons]
    omega

theorem Reads.getD (h : Reads z p w) {i : ℕ} (hi : i < w.length) :
    p + i < 8 * z.srcLen ∧ z.bitAt (p + i) = w.getD i false := by
  induction w generalizing p i with
  | nil => exact absurd hi (not_lt_zero i)
  | cons b w ih =>
    cases i with
    | zero => exact ⟨h.1, h.2.1⟩
    | succ i =>
      have := ih h.2.2 (lt_of_succ_lt_succ hi)
      rw [getD_cons_succ, show p + (i + 1) = p + 1 + i by omega]
      exact this

/-- The bits of a byte stand for it. -/
theorem Reads.value_byte {q : ℕ} (h : Reads z (8 * q) w) (hw : w.length = 8) :
    value w = (z.src q).toNat := by
  refine value_eq (by rw [hw]; exact (z.src q).toNat_lt) (fun i hi => ?_)
  have hbit := (h.getD hi).2
  rw [← hbit, InfIn.bitAt, show (8 * q + i) / 8 = q by omega, show (8 * q + i) % 8 = i by omega]

namespace InfAt

theorem le (h : InfAt z out p s) : p ≤ 8 * z.srcLen := by
  have := h.pos
  have := h.src
  omega

/-- **`inf_getbit`** takes the bit at the position. -/
theorem getbit (h : InfAt z out p s) (hz : z.srcLen < 2 ^ 32) (hp : p < 8 * z.srcLen) :
    Returns (infGetbit z) s fun b t => b = (z.bitAt p).toNat ∧ InfAt z out (p + 1) t := by
  have hpos := h.pos
  have hcnt8 := h.cnt
  have hlow : ∀ n k : ℕ, n / 2 ^ k % 2 = (n.testBit k).toNat := by
    intro n k
    rw [testBit_eq_decide_div_mod_eq]
    rcases mod_two_eq_zero_or_one (n / 2 ^ k) with h0 | h0 <;> simp [h0]
  have hhalf : ∀ n k : ℕ, n / 2 ^ k / 2 = n / 2 ^ (k + 1) := by
    intro n k
    rw [Nat.div_div_eq_div_mul, pow_succ]
  unfold infGetbit
  refine Returns.get ?_
  by_cases hcnt : s.bitcnt = 0
  · -- the next byte, with its lowest bit
    rw [if_pos hcnt, if_neg (by omega)]
    refine returns_srcAt (by omega) (Returns.set (Returns.pure ⟨?_, ?_⟩))
    · show (z.src s.srcPos).toNat % 2 = _
      have := hlow (z.src s.srcPos).toNat 0
      rw [pow_zero, Nat.div_one] at this
      rw [this, InfIn.bitAt, show p / 8 = s.srcPos by omega, show p % 8 = 0 by omega]
    · have hmod : (s.srcPos + 1) % 2 ^ 32 = s.srcPos + 1 := mod_eq_of_lt (by omega)
      refine ⟨h.error, (by decide : (7 : ℕ) < 8), ?_, ?_, fun _ => ?_, h.len, h.dst⟩
      · show 8 * ((s.srcPos + 1) % 2 ^ 32) = p + 1 + 7
        omega
      · show (s.srcPos + 1) % 2 ^ 32 ≤ z.srcLen
        omega
      · show (z.src s.srcPos).toNat / 2 = (z.src ((s.srcPos + 1) % 2 ^ 32 - 1)).toNat / 2 ^ 1
        rw [hmod, Nat.add_sub_cancel, pow_one]
  · rw [if_neg hcnt]
    have hbuf := h.buf hcnt
    have hbyte : s.srcPos - 1 = p / 8 := by omega
    refine Returns.set (Returns.pure ⟨?_, ⟨h.error, ?_, ?_, h.src, fun hne => ?_, h.len, h.dst⟩⟩)
    · show s.bitbuf % 2 = _
      rw [hbuf, hlow, InfIn.bitAt, hbyte, show 8 - s.bitcnt = p % 8 by omega]
    · show s.bitcnt - 1 < 8
      omega
    · show 8 * s.srcPos = p + 1 + (s.bitcnt - 1)
      omega
    · show s.bitbuf / 2 = (z.src (s.srcPos - 1)).toNat / 2 ^ (8 - (s.bitcnt - 1))
      rw [hbuf, hhalf, show 8 - s.bitcnt + 1 = 8 - (s.bitcnt - 1) by omega]

/-- **`inf_getbits`** returns the number that the bits stand for. -/
theorem getbits (h : InfAt z out p s) (hz : z.srcLen < 2 ^ 32) {w : List Bool}
    (hw : Reads z p w) :
    Returns (infGetbits z w.length) s fun v t => v = value w ∧ InfAt z out (p + w.length) t := by
  refine (Returns.foldlM_range (I := fun i v t => v = value (w.take i) ∧ InfAt z out (p + i) t)
    w.length ?_ ⟨rfl, h⟩).mono ?_
  · rintro i v t hi ⟨rfl, hat⟩
    obtain ⟨hin, hbit⟩ := hw.getD hi
    refine Returns.bind (hat.getbit hz hin) ?_
    rintro b u ⟨rfl, hat'⟩
    refine Returns.pure ⟨?_, hat'⟩
    have htake : w.take (i + 1) = w.take i ++ [w.getD i false] := by
      rw [take_add_one, List.getElem?_eq_getElem hi, getD_eq_getElem _ _ hi]
      rfl
    have hlen : (w.take i).length = i := length_take_of_le hi.le
    have hlt : value (w.take i) < 2 ^ i := by
      have := value_lt (w.take i)
      rwa [hlen] at this
    rw [htake, value_append, hlen, ← hbit, Nat.shiftLeft_eq, Nat.or_comm, mul_comm,
      ← Nat.two_pow_add_eq_or_of_lt hlt, add_comm]
    simp [value]
  · rintro v t ⟨rfl, hat⟩
    rw [take_length]
    exact ⟨rfl, hat⟩

end InfAt

/-! ## Codes -/

/-- **The tables are those of the code**: every symbol is at its place. -/
structure InfHuff.Tables (h : InfHuff) (lengths : List ℕ) : Prop where
  /-- The tables are in order. -/
  ok : h.Ok
  /-- The counts. -/
  count : h.count = codeCount lengths
  /-- The symbols. -/
  symbol : ∀ sym < lengths.length, lengths.getD sym 0 ≠ 0 →
    h.symbol (codePlace lengths h.count sym) = some sym

/-- **`inf_build`** makes the tables of the lengths it is given. -/
theorem infBuild_tables {l lengths : List ℕ} {n : ℕ} (htake : l.take n = lengths)
    (hlen : lengths.length = n) (hmax : ∀ k ∈ lengths, k ≤ infMaxbits) (hcap : n ≤ infMaxcodes) :
    Returns (infBuild l n) s fun h t => t = s ∧ h.Tables lengths := by
  subst htake
  have hn : n ≤ l.length := by
    rw [length_take] at hlen
    omega
  refine (infBuild_returns hn hmax hcap).mono ?_
  rintro h t ⟨rfl, hok, hcount, hsymbol⟩
  refine ⟨rfl, hok, hcount, fun sym hsym hne => ?_⟩
  rw [hlen] at hsym
  have hget : (l.take n).getD sym 0 = l.getD sym 0 := by
    rw [getD_eq_getElem?_getD, getD_eq_getElem?_getD, List.getElem?_take_of_lt hsym]
  have hplace : codePlace (l.take n) h.count sym = codePlace l h.count sym := by
    unfold codePlace
    rw [hget, take_take, min_eq_left hsym.le]
  rw [hget] at hne
  rw [hplace]
  exact hsymbol sym hsym hne

/-- The number of words of a length is the count of the tables. -/
theorem wordCount_eq (lengths : List ℕ) (l : ℕ) : wordCount lengths l = codeCount lengths l := by
  unfold wordCount codeCount
  by_cases hl : l = 0
  · subst hl
    rw [if_pos rfl, update_self]
  · rw [if_neg hl, update_of_ne hl]

variable {lengths : List ℕ}

variable {h : InfHuff}

/-- **The walk to a word**: at every length the code is the beginning of the word, and the first
word of the length is what the walk compares it with. -/
theorem infDecodeFrom_reads (hz : z.srcLen < 2 ^ 32) (hh : h.Tables lengths)
    {sym c r : ℕ} (hsym : sym < lengths.length) (hused : lengths.getD sym 0 ≠ 0)
    (hr : r = (lengths.take sym).count (lengths.getD sym 0))
    (hrlt : r < wordCount lengths (lengths.getD sym 0))
    (hc : c = firstCode lengths (lengths.getD sym 0) + r) (hmax : lengths.getD sym 0 ≤ infMaxbits)
    (n k : ℕ) (hk : k < lengths.getD sym 0) (hn : k + n = infMaxbits) (hat : InfAt z out p s)
    (hw : Reads z p ((codeword (lengths.getD sym 0) c).drop k)) :
    Returns (infDecodeFrom z h n (k + 1) (2 * (c / 2 ^ (lengths.getD sym 0 - k)))
      (firstCode lengths (k + 1)) (codeStart h.count (k + 1))) s fun v t =>
        v = sym ∧ InfAt z out (p + (lengths.getD sym 0 - k)) t := by
  generalize hl : lengths.getD sym 0 = l at *
  induction n generalizing k p s with
  | zero => omega
  | succ n ih =>
    rw [codeword_drop c hk] at hw
    refine Returns.bind (hat.getbit hz hw.1) ?_
    rintro b t ⟨rfl, hat'⟩
    refine returns_countAt (by omega) ?_
    -- the bit that was read is the next one of the word
    have hcode : 2 * (c / 2 ^ (l - k)) ||| (z.bitAt p).toNat = c / 2 ^ (l - (k + 1)) := by
      have hor := two_pow_add_eq_or_of_lt (i := 1) (b := (z.bitAt p).toNat)
        (Bool.toNat_lt _) (c / 2 ^ (l - k))
      rw [pow_one] at hor
      have hpow : 2 ^ (l - k) = 2 ^ (l - (k + 1)) * 2 := by
        rw [← pow_succ, show l - (k + 1) + 1 = l - k by omega]
      rw [← hor, hw.2.1, show l - 1 - k = l - (k + 1) by omega, testBit_eq_decide_div_mod_eq,
        hpow, ← Nat.div_div_eq_div_mul]
      have hmod : (decide (c / 2 ^ (l - (k + 1)) % 2 = 1)).toNat = c / 2 ^ (l - (k + 1)) % 2 := by
        rcases mod_two_eq_zero_or_one (c / 2 ^ (l - (k + 1))) with h0 | h0 <;> simp [h0]
      rw [hmod]
      omega
    rw [hcode]
    have hcount : h.count (k + 1) = wordCount lengths (k + 1) := by
      rw [wordCount_eq, hh.count]
    by_cases hlast : k + 1 = l
    · -- the whole word has been read
      subst hlast
      rw [Nat.sub_self, pow_zero, Nat.div_one, if_pos (by rw [hcount]; omega)]
      have hplace : ((codeStart h.count (k + 1) : ℕ) : ℤ)
          + ((c : ℤ) - firstCode lengths (k + 1)) = ((codePlace lengths h.count sym : ℕ) : ℤ) := by
        unfold codePlace
        rw [hl, ← hr]
        omega
      rw [hplace]
      have hsome := hh.symbol sym hsym (by rw [hl]; exact hused)
      have hroom : codePlace lengths h.count sym < infMaxcodes := by
        have hmono := codeStart_mono h.count (show k + 1 + 1 ≤ infMaxbits + 1 by omega)
        have hnext := codeStart_succ h.count (k + 1)
        have hle := hh.ok.room
        unfold codePlace
        rw [hl, ← hr]
        omega
      unfold InfHuff.symbolAt
      rw [Int.toNat_natCast, hsome]
      refine Returns.check ⟨Int.natCast_nonneg _, by exact_mod_cast hroom, rfl⟩
        (Returns.pure ⟨rfl, ?_⟩)
      rw [show p + (k + 1 - k) = p + 1 by omega]
      exact hat'
    · -- the words of this length are all before it
      have hbefore : 2 ^ (l - (k + 1)) * (firstCode lengths (k + 1) + wordCount lengths (k + 1))
          ≤ firstCode lengths l := firstCode_le (by omega)
      have hge : firstCode lengths (k + 1) + wordCount lengths (k + 1)
          ≤ c / 2 ^ (l - (k + 1)) := by
        rw [le_div_iff_mul_le (by positivity), mul_comm]
        omega
      rw [if_neg (by rw [hcount]; omega)]
      have hshift : ∀ k : ℕ, k <<< 1 = 2 * k := fun k => by rw [shiftLeft_eq, pow_one, mul_comm]
      rw [hshift, hshift, ← codeStart_succ, hcount]
      refine (ih (k + 1) (by omega) hat' (by omega) hw.2.2).mono ?_
      rintro v u ⟨hv, hu⟩
      rw [show p + 1 + (l - (k + 1)) = p + (l - k) by omega] at hu
      exact ⟨hv, hu⟩

/-- **`inf_decode`** returns the symbol of the word that is at the position. -/
theorem infDecode_reads (hz : z.srcLen < 2 ^ 32) (hcode : IsCode lengths)
    (hh : h.Tables lengths) {sym : ℕ} (henc : Encodes lengths sym w) (hat : InfAt z out p s)
    (hw : Reads z p w) :
    Returns (infDecode z h) s fun v t => v = sym ∧ InfAt z out (p + w.length) t := by
  obtain ⟨r, hrlt, hr, rfl, hlt, hle⟩ := henc.exists_code hcode
  have hfrom := infDecodeFrom_reads hz hh henc.mem henc.used hr hrlt rfl hle infMaxbits 0
    (pos_of_ne_zero henc.used) (zero_add _) hat hw
  have hone : codeStart h.count 1 = 0 := by
    rw [codeStart_succ, hh.ok.zero]
    rfl
  have hfirst : firstCode lengths 1 = 0 := by simp [firstCode, wordCount]
  rw [Nat.sub_zero, Nat.div_eq_of_lt hlt, Nat.mul_zero, Nat.zero_add, hone, hfirst] at hfrom
  rw [codeword_length]
  exact hfrom

/-- The tables give the symbols below `N` of the code. -/
def Decodes (z : InfIn) (h : InfHuff) (lengths : List ℕ) (N : ℕ) : Prop :=
  ∀ sym < N, ∀ w, Encodes lengths sym w → ∀ out p s, InfAt z out p s → Reads z p w →
    Returns (infDecode z h) s fun v t => v = sym ∧ InfAt z out (p + w.length) t

theorem InfHuff.Tables.decodes (hh : h.Tables lengths) (hz : z.srcLen < 2 ^ 32)
    (hcode : IsCode lengths) (N : ℕ) : Decodes z h lengths N :=
  fun _ _ _ henc _ _ _ hat hw => infDecode_reads hz hcode hh henc hat hw

/-! ## Data -/

/-- The tables of the source are those of the format. -/
theorem tables_eq :
    (∀ i < 29, infLenBase.getD i 0 = lengthBase i ∧ infLenExtra.getD i 0 = lengthExtra i)
      ∧ ∀ j < 30, infDistBase.getD j 0 = distBase j ∧ infDistExtra.getD j 0 = distExtra j := by
  decide

namespace InfAt

/-- A byte is produced. -/
theorem put (h : InfAt z out p s) (hcap : z.dstCap < 2 ^ 32) (hroom : out.length < z.dstCap)
    (b : UInt8) : Returns (z.put b) s fun _ t => InfAt z (out ++ [b]) p t := by
  have hlen := h.len
  have hmod : (s.dstPos + 1) % 2 ^ 32 = s.dstPos + 1 := mod_eq_of_lt (by omega)
  refine Returns.get (Returns.check (by omega) ⟨(), _, rfl, ?_⟩)
  refine ⟨h.error, h.cnt, h.pos, h.src, h.buf, ?_, fun i hi => ?_⟩
  · show (s.dstPos + 1) % 2 ^ 32 = _
    rw [hmod, hlen, length_append, length_singleton]
  · show update s.dst s.dstPos b i = _
    rw [length_append, length_singleton] at hi
    by_cases hlast : i = out.length
    · subst hlast
      rw [hlen, update_self, getD_append_right _ _ _ _ le_rfl, Nat.sub_self]
      rfl
    · rw [update_of_ne (by omega), getD_append _ _ _ _ (by omega)]
      exact h.dst i (by omega)

end InfAt

/-- A match is copied. -/
theorem InfAt.copy (h : InfAt z out p s) (hcap : z.dstCap < 2 ^ 32) {dist len : ℕ}
    (hdist : 0 < dist) (hback : dist ≤ out.length) (hroom : out.length + len ≤ z.dstCap) :
    Returns (infCopy z len dist) s fun _ t => InfAt z (copyMatch dist len out) p t := by
  refine Returns.foldlM_range (I := fun i (_ : Unit) t => InfAt z (copyMatch dist i out) p t) len ?_ h
  rintro i _ t hi hat
  have hlen := hat.len
  rw [copyMatch_length] at hlen
  refine Returns.get (Returns.check ⟨hdist, by omega⟩ (Returns.check (by omega) ?_))
  have hread : t.dst (t.dstPos - dist)
      = (copyMatch dist i out).getD ((copyMatch dist i out).length - dist) 0 := by
    rw [hat.dst _ (by rw [copyMatch_length]; omega), hlen, copyMatch_length]
  rw [hread, copyMatch_succ]
  exact hat.put hcap (by rw [copyMatch_length]; omega) _

section Data

variable {lh dh : InfHuff} {lit dist : List ℕ} {w x y v : List Bool}
  (hz : z.srcLen < 2 ^ 32) (hcap : z.dstCap < 2 ^ 32)
  (hlh : Decodes z lh lit 286) (hdh : Decodes z dh dist 30)

include hlh in
/-- The end of the block. -/
theorem infBlockTurn_stop (henc : Encodes lit 256 w) (hat : InfAt z out p s) (hw : Reads z p w) :
    Returns (infBlockTurn z lh dh ()) s fun r t => r = .inr 0 ∧ InfAt z out (p + w.length) t := by
  refine Returns.bind (hlh 256 (by decide) w henc out p s hat hw) ?_
  rintro sym t ⟨rfl, hat'⟩
  refine Returns.get ?_
  rw [hat'.error, if_neg Bool.false_ne_true, if_pos (by decide)]
  exact Returns.pure ⟨rfl, hat'⟩

include hcap hlh in
/-- A byte. -/
theorem infBlockTurn_byte {sym : ℕ} (hsym : sym < 256) (henc : Encodes lit sym w)
    (hroom : out.length < z.dstCap) (hat : InfAt z out p s) (hw : Reads z p w) :
    Returns (infBlockTurn z lh dh ()) s fun r t =>
      r = .inl () ∧ InfAt z (out ++ [UInt8.ofNat sym]) (p + w.length) t := by
  refine Returns.bind (hlh sym (by omega) w henc out p s hat hw) ?_
  rintro _ t ⟨rfl, hat'⟩
  have hlen := hat'.len
  refine Returns.get ?_
  rw [hat'.error, if_neg Bool.false_ne_true, if_neg (by omega), if_pos (by omega),
    if_neg (by omega)]
  refine Returns.bind (hat'.put hcap hroom _) (fun _ u hu => Returns.pure ⟨rfl, ?_⟩)
  have hbyte : UInt8.ofInt (sym : ℤ) = UInt8.ofNat sym := by
    have hmod : Int.toNat ((sym : ℤ) % 2 ^ 8) = sym := by omega
    exact congrArg UInt8.ofNat hmod
  rw [hbyte] at hu
  exact hu

include hz hcap hlh hdh in
/-- A match. -/
theorem infBlockTurn_copy {i j : ℕ} (hi : i < 29) (hj : j < 30) (hw : Encodes lit (257 + i) w)
    (hx : x.length = lengthExtra i) (hy : Encodes dist j y) (hv : v.length = distExtra j)
    (hback : distBase j + value v ≤ out.length)
    (hroom : out.length + (lengthBase i + value x) ≤ z.dstCap) (hat : InfAt z out p s)
    (hreads : Reads z p (w ++ (x ++ (y ++ v)))) :
    Returns (infBlockTurn z lh dh ()) s fun r t => r = .inl ()
      ∧ InfAt z (copyMatch (distBase j + value v) (lengthBase i + value x) out)
        (p + (w ++ (x ++ (y ++ v))).length) t := by
  obtain ⟨hrw, hreads⟩ := reads_append.1 hreads
  obtain ⟨hrx, hreads⟩ := reads_append.1 hreads
  obtain ⟨hry, hrv⟩ := reads_append.1 hreads
  obtain ⟨hlb, hle, hdb, hde, -⟩ := tables
  obtain ⟨heqb, heqe⟩ := tables_eq.1 i hi
  obtain ⟨heqdb, heqde⟩ := tables_eq.2 j hj
  refine Returns.bind (hlh (257 + i) (by omega) w hw out p s hat hrw) ?_
  rintro _ t₁ ⟨rfl, hat₁⟩
  refine Returns.get ?_
  have hidx : (((257 + i : ℕ) : ℤ) - 257).toNat = i := by omega
  rw [hat₁.error, if_neg Bool.false_ne_true, if_neg (by omega), if_neg (by omega), hidx]
  unfold infMatch
  rw [if_neg (by omega)]
  refine returns_infAt (by omega) (returns_infAt (by omega) ?_)
  rw [heqb, heqe, ← hx]
  refine Returns.bind (hat₁.getbits hz hrx) ?_
  rintro _ t₂ ⟨rfl, hat₂⟩
  refine Returns.bind (hdh j hj y hy out _ t₂ hat₂ hry) ?_
  rintro _ t₃ ⟨rfl, hat₃⟩
  refine Returns.get ?_
  rw [hat₃.error, if_neg (by simp; omega), Int.toNat_natCast]
  refine returns_infAt (by omega) (returns_infAt (by omega) ?_)
  rw [heqdb, heqde, ← hv]
  refine Returns.bind (hat₃.getbits hz hrv) ?_
  rintro _ t₄ ⟨rfl, hat₄⟩
  refine Returns.get ?_
  have hlen := hat₄.len
  have hmod : (t₄.dstPos + (lengthBase i + value x)) % 2 ^ 32
      = t₄.dstPos + (lengthBase i + value x) := mod_eq_of_lt (by omega)
  have hpos := distBase_pos hj
  rw [if_neg (by omega), hmod, if_neg (by omega)]
  refine Returns.bind (hat₄.copy hcap (by omega) hback hroom) (fun _ t₅ hat₅ => ?_)
  refine Returns.pure ⟨rfl, ?_⟩
  simp only [length_append]
  rw [show p + (w.length + (x.length + (y.length + v.length)))
    = p + w.length + x.length + y.length + v.length by omega]
  exact hat₅

include hz hcap hlh hdh in
/-- **`inf_block`** produces the data of a block. -/
theorem infBlock_reads (hitems : Items lit dist out w out') (hroom : out'.length ≤ z.dstCap)
    {fuel : ℕ} (hfuel : w.length ≤ fuel) (hat : InfAt z out p s) (hw : Reads z p w) :
    Returns (infBlock z fuel lh dh) s fun rc t => rc = 0 ∧ InfAt z out' (p + w.length) t := by
  unfold infBlock
  -- every item takes a bit at least, so that the bits bound the turns
  induction hitems generalizing fuel p s with
  | stop henc =>
    have hpos := henc.length_pos
    obtain ⟨n, rfl⟩ := exists_eq_succ_of_ne_zero (show fuel ≠ 0 by omega)
    refine Returns.repeatM_turn ((infBlockTurn_stop hlh henc hat hw).mono ?_)
    rintro r t ⟨rfl, hat'⟩
    exact ⟨rfl, hat'⟩
  | byte hsym henc hrest ih =>
    have hpos := henc.length_pos
    have hgrow := hrest.length_le
    rw [length_append] at hfuel hgrow
    rw [length_singleton] at hgrow
    obtain ⟨n, rfl⟩ := exists_eq_succ_of_ne_zero (show fuel ≠ 0 by omega)
    obtain ⟨hrw, hrv⟩ := reads_append.1 hw
    refine Returns.repeatM_turn ((infBlockTurn_byte hcap hlh hsym henc (by omega) hat hrw).mono ?_)
    rintro r t ⟨rfl, hat'⟩
    rw [length_append, ← add_assoc]
    exact ih hroom (by omega) hat' hrv
  | copy hi hj henc hx hency hv hback hrest ih =>
    have hpos := henc.length_pos
    have hgrow := hrest.length_le
    rw [copyMatch_length] at hgrow
    simp only [length_append] at hfuel
    obtain ⟨n, rfl⟩ := exists_eq_succ_of_ne_zero (show fuel ≠ 0 by omega)
    rename_i out i j w x y z' v out'
    have hsplit : w ++ (x ++ (y ++ (z' ++ v))) = (w ++ (x ++ (y ++ z'))) ++ v := by
      simp only [append_assoc]
    rw [hsplit] at hw ⊢
    obtain ⟨hrw, hrv⟩ := reads_append.1 hw
    refine Returns.repeatM_turn ((infBlockTurn_copy hz hcap hlh hdh hi hj henc hx hency hv hback
      (by omega) hat hrw).mono ?_)
    rintro r t ⟨rfl, hat'⟩
    rw [length_append, ← add_assoc]
    exact ih hroom (by omega) hat' hrv

end Data

end Makar
