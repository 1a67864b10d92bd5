import Makar.ByteMemory

/-!
# The hash behind the password file

The model of `auth/microhash.c`. The message is padded to whole blocks of
thirty-two bytes, and each block is mixed into two 32-bit words, four bytes
at a time. Only the first sixteen bytes of a block are mixed: the loop over a
block makes four turns of four bytes.

One turn is a bijection of the state for every word, and takes different
words to different states (`mix_left_injective`, `mix_right_injective`). So
two messages that differ in one byte have the same hash exactly when that
byte is in the half of its block that is not mixed
(`microhashU64_eq_iff`).
-/

namespace Makar

open List

/-! ## Rotation -/

/-- `rotl32`. -/
def rotl32 (v : BitVec 32) (n : ℕ) : BitVec 32 := (v <<< n) ||| (v >>> (32 - n))

/-- Rotation loses nothing. -/
theorem rotl32_injective {n : ℕ} (hn : n < 32) : Function.Injective (fun v => rotl32 v n) := by
  intro v w h
  have hrot : ∀ u : BitVec 32, rotl32 u n = u.rotateLeft n := by
    intro u
    rw [BitVec.rotateLeft_def, Nat.mod_eq_of_lt hn]
    rfl
  simp only [hrot] at h
  refine BitVec.eq_of_getMsbD_eq (fun k hk => ?_)
  have hbit := congrArg (fun u => u.getMsbD ((k + (32 - n)) % 32)) h
  simp only [BitVec.getMsbD_rotateLeft] at hbit
  have hidx : (n + (k + (32 - n)) % 32) % 32 = k := by omega
  rw [hidx, decide_eq_true (Nat.mod_lt _ (by decide)), Bool.true_and, Bool.true_and] at hbit
  exact hbit

/-! ## One word -/

/-- The two state words. -/
structure MhState where
  /-- `state[0]`. -/
  s0 : BitVec 32
  /-- `state[1]`. -/
  s1 : BitVec 32
  deriving DecidableEq, Repr

/-- The state before the first block. -/
def mhInit : MhState := ⟨0x243F6A88, 0x85A308D3⟩

/-- Mix one word into the state; the second assignment reads the new
`state[0]`. -/
def mix (st : MhState) (word : BitVec 32) : MhState :=
  let s0 := rotl32 (st.s0 ^^^ word) 5 + st.s1
  ⟨s0, rotl32 (st.s1 + word) 11 ^^^ s0⟩

/-- **A word can be unmixed**: for a given word, different states stay
different. -/
theorem mix_left_injective (word : BitVec 32) : Function.Injective (fun st => mix st word) := by
  rintro ⟨a, b⟩ ⟨c, d⟩ h
  obtain ⟨h₀, h₁⟩ := MhState.mk.injEq .. ▸ h
  have h₀ : rotl32 (a ^^^ word) 5 + b = rotl32 (c ^^^ word) 5 + d := h₀
  have h₁ : rotl32 (b + word) 11 ^^^ (rotl32 (a ^^^ word) 5 + b)
      = rotl32 (d + word) 11 ^^^ (rotl32 (c ^^^ word) 5 + d) := h₁
  -- the second word of the state is recovered first, then the first
  rw [h₀, BitVec.xor_left_inj] at h₁
  have hbd : b = d := (BitVec.add_left_inj word).1 (rotl32_injective (by decide) h₁)
  subst hbd
  have hac : a ^^^ word = c ^^^ word :=
    rotl32_injective (by decide) ((BitVec.add_left_inj b).1 h₀)
  rw [BitVec.xor_left_inj] at hac
  rw [hac]

/-- **Different words make different states.** -/
theorem mix_right_injective (st : MhState) : Function.Injective (mix st) := by
  intro v w h
  have h₀ : rotl32 (st.s0 ^^^ v) 5 + st.s1 = rotl32 (st.s0 ^^^ w) 5 + st.s1 :=
    congrArg MhState.s0 h
  have hx : st.s0 ^^^ v = st.s0 ^^^ w :=
    rotl32_injective (by decide) ((BitVec.add_left_inj st.s1).1 h₀)
  exact BitVec.xor_right_inj st.s0 |>.1 hx

/-- Mixing the same words into different states leaves them different. -/
theorem foldl_mix_injective (ws : List (BitVec 32)) :
    Function.Injective (fun st => ws.foldl mix st) := by
  induction ws with
  | nil => exact fun _ _ h => h
  | cons w ws ih => exact fun s t h => mix_left_injective w (ih h)

/-! ## Blocks -/

/-- Bytes in a block (`BS`). -/
def mhBlockSize : ℕ := 32

/-- The length of the padded message. -/
def mhPadded (len : ℕ) : ℕ := (len + 5 + (mhBlockSize - 1)) / mhBlockSize * mhBlockSize

/-- The byte of the padded message at an index: the message, the end mark,
zeroes, and the length in the last four bytes. -/
def mhByte (data : List Byte) (idx : ℕ) : Byte :=
  if idx < data.length then data.getD idx 0
  else if idx = data.length then 0x80
  else if mhPadded data.length - 4 ≤ idx then
    BitVec.ofNat 8 (data.length >>> (8 * (mhBlockSize - 1 - idx % mhBlockSize)))
  else 0

/-- A word out of four bytes, the lowest first. -/
def mhWord (b₀ b₁ b₂ b₃ : Byte) : BitVec 32 :=
  b₀.setWidth 32 ||| (b₁.setWidth 32 <<< 8) ||| (b₂.setWidth 32 <<< 16)
    ||| (b₃.setWidth 32 <<< 24)

/-- Word `i` of the block that starts at `off`. -/
def blockWord (data : List Byte) (off i : ℕ) : BitVec 32 :=
  mhWord (mhByte data (off + i * 4)) (mhByte data (off + (i * 4 + 1)))
    (mhByte data (off + (i * 4 + 2))) (mhByte data (off + (i * 4 + 3)))

/-- The loops of `microhash_u64`: for each block, its first four words. -/
def mhRun (data : List Byte) : MhState :=
  (List.range (mhPadded data.length / mhBlockSize)).foldl
    (fun st blk => (List.range 4).foldl
      (fun st i => mix st (blockWord data (blk * mhBlockSize) i)) st) mhInit

/-- The value returned for a final state. -/
def mhFinal (st : MhState) : BitVec 64 :=
  ((st.s0 ^^^ rotl32 st.s1 3).setWidth 64 <<< 32) ||| st.s1.setWidth 64

/-- `microhash_u64`. -/
def microhashU64 (data : List Byte) : BitVec 64 := mhFinal (mhRun data)

/-! ## Messages that differ in one byte -/

/-- The words mixed, in order. -/
def mhWords (data : List Byte) : List (BitVec 32) :=
  (List.range (mhPadded data.length / mhBlockSize * 4)).map
    (fun k => blockWord data (k / 4 * mhBlockSize) (k % 4))

/-- **The two loops are one fold over the words mixed.** -/
theorem mhRun_eq_foldl (data : List Byte) : mhRun data = (mhWords data).foldl mix mhInit := by
  unfold mhRun mhWords
  generalize mhInit = st
  generalize mhPadded data.length / mhBlockSize = n
  induction n with
  | zero => rfl
  | succ n ih =>
    have hrange : range ((n + 1) * 4) = range (n * 4)
        ++ [n * 4, n * 4 + 1, n * 4 + 2, n * 4 + 3] := by
      rw [Nat.add_mul, range_add]
      rfl
    have hdiv : ∀ i < 4, (n * 4 + i) / 4 = n ∧ (n * 4 + i) % 4 = i := by omega
    rw [range_succ (n := n), foldl_append, ih, hrange, map_append, foldl_append]
    simp only [foldl_cons, foldl_nil, map_cons, map_nil]
    rw [(hdiv 1 (by decide)).1, (hdiv 1 (by decide)).2, (hdiv 2 (by decide)).1,
      (hdiv 2 (by decide)).2, (hdiv 3 (by decide)).1, (hdiv 3 (by decide)).2,
      Nat.mul_div_cancel n (by decide), Nat.mul_mod_left]
    rfl

/-- A word is its bytes one after another, the highest first. -/
theorem mhWord_eq_append (a b c d : Byte) : mhWord a b c d = d ++ c ++ b ++ a := by
  unfold mhWord
  ext i hi
  simp only [BitVec.getElem_or, BitVec.getElem_setWidth, BitVec.getElem_shiftLeft]
  grind

/-- The two parts of a concatenation can be read back. -/
theorem append_injective {n m : ℕ} {x x' : BitVec n} {y y' : BitVec m}
    (h : x ++ y = x' ++ y') : x = x' ∧ y = y' := by
  have hbit : ∀ i, (x ++ y).getLsbD i = (x' ++ y').getLsbD i := fun i => by rw [h]
  constructor
  · refine BitVec.eq_of_getLsbD_eq (fun i _ => ?_)
    have := hbit (i + m)
    rw [BitVec.getLsbD_append, BitVec.getLsbD_append] at this
    simpa using this
  · refine BitVec.eq_of_getLsbD_eq (fun i hi => ?_)
    have := hbit i
    rw [BitVec.getLsbD_append, BitVec.getLsbD_append] at this
    simpa [hi] using this

/-- The bytes of a word are in the word. -/
theorem mhWord_injective {a b c d a' b' c' d' : Byte}
    (h : mhWord a b c d = mhWord a' b' c' d') : a = a' ∧ b = b' ∧ c = c' ∧ d = d' := by
  rw [mhWord_eq_append, mhWord_eq_append] at h
  obtain ⟨h, ha⟩ := append_injective h
  obtain ⟨h, hb⟩ := append_injective h
  obtain ⟨hd, hc⟩ := append_injective h
  exact ⟨ha, hb, hc, hd⟩

variable {p q : List Byte} {j : ℕ}

/-- Two messages of one length that differ in one byte, at `j`. -/
structure DifferAt (p q : List Byte) (j : ℕ) : Prop where
  length : p.length = q.length
  lt : j < p.length
  ne : p.getD j 0 ≠ q.getD j 0
  eq : ∀ i, i ≠ j → p.getD i 0 = q.getD i 0

/-- The padded messages differ in that byte and in no other. -/
theorem DifferAt.mhByte_eq_iff (h : DifferAt p q j) (i : ℕ) :
    mhByte p i = mhByte q i ↔ i ≠ j := by
  unfold mhByte
  rw [← h.length]
  by_cases hi : i < p.length
  · rw [if_pos hi, if_pos hi]
    exact ⟨fun heq hij => h.ne (hij ▸ heq), h.eq i⟩
  · rw [if_neg hi, if_neg hi]
    have hlt := h.lt
    exact ⟨fun _ hij => hi (hij ▸ hlt), fun _ => rfl⟩

/-- The words differ exactly where the word holds that byte. -/
theorem DifferAt.blockWord_eq_iff (h : DifferAt p q j) (off i : ℕ) :
    blockWord p off i = blockWord q off i
      ↔ ¬ (off + i * 4 ≤ j ∧ j < off + i * 4 + 4) := by
  unfold blockWord
  constructor
  · intro heq
    obtain ⟨h₀, h₁, h₂, h₃⟩ := mhWord_injective heq
    rw [h.mhByte_eq_iff] at h₀ h₁ h₂ h₃
    omega
  · intro hj
    have h₀ := (h.mhByte_eq_iff (off + i * 4)).2 (by omega)
    have h₁ := (h.mhByte_eq_iff (off + (i * 4 + 1))).2 (by omega)
    have h₂ := (h.mhByte_eq_iff (off + (i * 4 + 2))).2 (by omega)
    have h₃ := (h.mhByte_eq_iff (off + (i * 4 + 3))).2 (by omega)
    rw [h₀, h₁, h₂, h₃]

/-- Two word lists that agree but for one place, where they differ, end in
different states. -/
theorem foldl_mix_ne {n k : ℕ} {u v : ℕ → BitVec 32} (hk : k < n) (hne : u k ≠ v k)
    (heq : ∀ i, i ≠ k → u i = v i) (st : MhState) :
    ((List.range n).map u).foldl mix st ≠ ((List.range n).map v).foldl mix st := by
  obtain ⟨m, rfl⟩ : ∃ m, n = k + 1 + m := ⟨n - (k + 1), by omega⟩
  rw [range_add, range_succ]
  simp only [map_append, map_map, foldl_append, map_cons, map_nil,
    foldl_cons, foldl_nil]
  have hpre : (range k).map u = (range k).map v := by
    refine map_congr_left (fun i hi => heq i ?_)
    have := mem_range.1 hi
    omega
  have hsuf : (range m).map (u ∘ fun x => k + 1 + x)
      = (range m).map (v ∘ fun x => k + 1 + x) := by
    refine map_congr_left (fun i _ => heq _ ?_)
    show k + 1 + i ≠ k
    omega
  rw [hpre, hsuf]
  exact fun h => hne (mix_right_injective _ (foldl_mix_injective _ h))

/-- **The state sees the byte exactly when it is in the first half of its
block.** -/
theorem DifferAt.mhRun_eq_iff (h : DifferAt p q j) : mhRun p = mhRun q ↔ 16 ≤ j % 32 := by
  have hlt := h.lt
  rw [mhRun_eq_foldl, mhRun_eq_foldl]
  unfold mhWords
  rw [← h.length]
  constructor
  · intro heq
    by_contra hj
    -- the word that holds the byte is mixed
    refine foldl_mix_ne (k := j / 32 * 4 + j % 32 / 4) ?_ ?_ ?_ mhInit heq
    · unfold mhPadded mhBlockSize
      omega
    · rw [Ne, h.blockWord_eq_iff]
      unfold mhBlockSize
      omega
    · intro i hi
      rw [h.blockWord_eq_iff]
      unfold mhBlockSize
      omega
  · intro hj
    congr 1
    refine map_congr_left (fun k _ => ?_)
    rw [h.blockWord_eq_iff]
    unfold mhBlockSize
    omega

/-- The final value loses nothing of the state. -/
theorem mhFinal_injective : Function.Injective mhFinal := by
  rintro ⟨a, b⟩ ⟨c, d⟩ h
  have hcat : ∀ x y : BitVec 32, (x.setWidth 64 <<< 32) ||| y.setWidth 64 = x ++ y := by
    intro x y
    ext i hi
    simp only [BitVec.getElem_or, BitVec.getElem_setWidth, BitVec.getElem_shiftLeft]
    grind
  unfold mhFinal at h
  rw [hcat, hcat] at h
  obtain ⟨hx, hbd⟩ := append_injective h
  have hbd : b = d := hbd
  subst hbd
  rw [BitVec.xor_left_inj] at hx
  rw [show a = c from hx]

/-- **One changed byte changes the hash exactly when it is in the first half
of its block.** -/
theorem DifferAt.microhashU64_eq_iff (h : DifferAt p q j) :
    microhashU64 p = microhashU64 q ↔ 16 ≤ j % 32 := by
  unfold microhashU64
  rw [mhFinal_injective.eq_iff]
  exact h.mhRun_eq_iff

/-! ## The hexadecimal form -/

/-- The digits of `microhash_hex16`. -/
def hexDigits : List Byte :=
  [0x30, 0x31, 0x32, 0x33, 0x34, 0x35, 0x36, 0x37, 0x38, 0x39, 0x61, 0x62, 0x63, 0x64, 0x65, 0x66]

/-- Digit `i` of a hash, the highest first. -/
def hexDigit (h : BitVec 64) (i : ℕ) : Byte :=
  hexDigits.getD ((h >>> (60 - i * 4)) &&& 0xF).toNat 0

/-- A 64-bit value as sixteen hexadecimal digits. -/
def hex16 (h : BitVec 64) : List Byte := (List.range 16).map (hexDigit h)

/-- `microhash_hex16`. -/
def microhashHex16 (data : List Byte) : List Byte := hex16 (microhashU64 data)

@[simp] theorem length_hex16 (h : BitVec 64) : (hex16 h).length = 16 := by
  simp [hex16]

/-- Every digit is a digit of the table. -/
theorem mem_hexDigits_of_mem {h : BitVec 64} {c : Byte} (hc : c ∈ hex16 h) : c ∈ hexDigits := by
  obtain ⟨i, -, rfl⟩ := mem_map.1 hc
  unfold hexDigit
  have hlt : ((h >>> (60 - i * 4)) &&& 0xF).toNat < hexDigits.length := by
    rw [BitVec.toNat_and]
    exact Nat.lt_of_le_of_lt Nat.and_le_right (by decide)
  rw [getD_eq_getElem?_getD, getElem?_eq_getElem hlt]
  exact getElem_mem hlt

/-- Different digits of the table are at different places. -/
theorem getD_hexDigits_injective : ∀ a < 16, ∀ b < 16,
    hexDigits.getD a 0 = hexDigits.getD b 0 → a = b := by
  decide

/-- **The digits determine the value.** -/
theorem hex16_injective : Function.Injective hex16 := by
  intro x y h
  have hdigit : ∀ i < 16, (x >>> (60 - i * 4)) &&& 0xF = (y >>> (60 - i * 4)) &&& 0xF := by
    intro i hi
    have hi' : (hex16 x)[i]? = (hex16 y)[i]? := by rw [h]
    simp only [hex16, getElem?_map, getElem?_range hi, Option.map_some,
      Option.some.injEq] at hi'
    refine BitVec.eq_of_toNat_eq (getD_hexDigits_injective _ ?_ _ ?_ hi') <;>
    · rw [BitVec.toNat_and]
      exact Nat.lt_of_le_of_lt Nat.and_le_right (by decide)
  refine BitVec.eq_of_getLsbD_eq (fun k hk => ?_)
  have hbit := congrArg (fun u => u.getLsbD (k % 4)) (hdigit (15 - k / 4) (by omega))
  have hmask : (0xF : BitVec 64).getLsbD (k % 4) = true := by
    have : ∀ r < 4, (0xF : BitVec 64).getLsbD r = true := by decide
    exact this _ (Nat.mod_lt _ (by decide))
  have hidx : 60 - (15 - k / 4) * 4 + k % 4 = k := by omega
  simpa only [BitVec.getLsbD_and, BitVec.getLsbD_ushiftRight, hmask, Bool.and_true, hidx]
    using hbit

end Makar
