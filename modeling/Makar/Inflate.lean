import Makar.Checked

/-!
# `inflate_raw`

The model of `fs/inflate.c`, the decompressor for the entries of an archive. The input
is adversarial: nothing is known of its bytes, and the code lengths it describes need
not be those of a prefix code.

The computations are those of `Checked`. Every access to an array of the source is
checked where it is made, against the size the array has in C: the input and the output,
the tables of a Huffman code, the code lengths, the constant tables. An access outside is
a fault (`InfFault`), and so is a read of a symbol that was never written, and a copy from
bytes of the output that are not there yet. The two loops that end only with the input
have fuel. Positions are 32-bit words, with the arithmetic of the source.
-/

namespace Makar

open Function List Checked

/-- What an access can violate. -/
inductive InfFault where
  /-- `src`, past its length. -/
  | src
  /-- `dst`, past its capacity. -/
  | dst
  /-- `dst`, at bytes that are not produced yet. -/
  | ahead
  /-- `count` of a code. -/
  | count
  /-- `symbol` of a code. -/
  | symbol
  /-- `offs` in `inf_build`. -/
  | offs
  /-- The code lengths. -/
  | lengths
  /-- A constant table. -/
  | table
  /-- The loop has not ended. -/
  | fuel
  deriving DecidableEq, Repr

/-- The arguments of `inflate_raw`. -/
structure InfIn where
  /-- `src`. -/
  src : ℕ → UInt8
  /-- `src_len`. -/
  srcLen : ℕ
  /-- `dst_cap`. -/
  dstCap : ℕ

/-- `inf_state`, the fields that change. -/
structure Inf where
  /-- `src_pos`. -/
  srcPos : ℕ
  /-- `bitbuf`. -/
  bitbuf : ℕ
  /-- `bitcnt`. -/
  bitcnt : ℕ
  /-- `dst`. -/
  dst : ℕ → UInt8
  /-- `dst_pos`. -/
  dstPos : ℕ
  /-- `error`. -/
  error : Bool

/-- A computation of the decompressor. -/
abbrev InfM (α : Type) : Type := Comp Inf InfFault α

/-- `INF_MAXBITS`. -/
def infMaxbits : ℕ := 15

/-- `INF_MAXLCODES`. -/
def infMaxlcodes : ℕ := 286

/-- `INF_MAXDCODES`. -/
def infMaxdcodes : ℕ := 30

/-- `INF_MAXCODES`. -/
def infMaxcodes : ℕ := infMaxlcodes + infMaxdcodes

/-- `inf_huff`. A symbol that was not written is none. -/
structure InfHuff where
  /-- `count`. -/
  count : ℕ → ℕ
  /-- `symbol`. -/
  symbol : ℕ → Option ℕ

/-! ## Accesses -/

/-- Set `error`. -/
def infError : InfM Unit := do
  let s ← get
  set { s with error := true }

/-- Read `src`. -/
def InfIn.srcAt (z : InfIn) (i : ℕ) : InfM ℕ := do
  check .src (i < z.srcLen)
  pure (z.src i).toNat

/-- Write the next byte of `dst`. -/
def InfIn.put (z : InfIn) (b : UInt8) : InfM Unit := do
  let s ← get
  check .dst (s.dstPos < z.dstCap)
  set { s with dst := update s.dst s.dstPos b, dstPos := (s.dstPos + 1) % 2 ^ 32 }

/-- Read `count`. -/
def InfHuff.countAt (h : InfHuff) (len : ℕ) : InfM ℕ := do
  check .count (len ≤ infMaxbits)
  pure (h.count len)

/-- Read `symbol`. -/
def InfHuff.symbolAt (h : InfHuff) (i : ℤ) : InfM ℤ := do
  check .symbol (0 ≤ i ∧ i < infMaxcodes ∧ (h.symbol i.toNat).isSome)
  pure ((h.symbol i.toNat).getD 0)

/-- Read a list of values. -/
def infAt (fault : InfFault) (l : List ℕ) (i : ℕ) : InfM ℕ := do
  check fault (i < l.length)
  pure (l.getD i 0)

/-! ## Bits -/

/-- The lowest bit of the buffer. -/
def infTake (s : Inf) : InfM ℕ := do
  set { s with bitbuf := s.bitbuf / 2, bitcnt := s.bitcnt - 1 }
  pure (s.bitbuf % 2)

/-- `inf_getbit`. -/
def infGetbit (z : InfIn) : InfM ℕ := do
  let s ← get
  if s.bitcnt = 0 then
    if z.srcLen ≤ s.srcPos then do
      infError
      pure 0
    else do
      let b ← z.srcAt s.srcPos
      infTake { s with bitbuf := b, srcPos := (s.srcPos + 1) % 2 ^ 32, bitcnt := 8 }
  else infTake s

/-- `inf_getbits`. -/
def infGetbits (z : InfIn) (n : ℕ) : InfM ℕ :=
  (range n).foldlM (fun v i => do
    let b ← infGetbit z
    pure (v ||| b <<< i)) 0

/-! ## Codes -/

/-- The counts in `inf_build`. -/
def infCount (lengths : List ℕ) (n : ℕ) : InfM (ℕ → ℕ) :=
  (range n).foldlM (fun count sym => do
    let l ← infAt .lengths lengths sym
    check .count (l ≤ infMaxbits)
    pure (update count l (count l + 1))) (fun _ => 0)

/-- The offsets in `inf_build`. -/
def infOffs (count : ℕ → ℕ) : ℕ → ℕ :=
  (range' 1 (infMaxbits - 1)).foldl
    (fun offs len => update offs (len + 1) (offs len + count len)) (fun _ => 0)

/-- The symbols in `inf_build`, with the offsets. -/
def infPlace (lengths : List ℕ) (n : ℕ) (offs : ℕ → ℕ) : InfM ((ℕ → Option ℕ) × (ℕ → ℕ)) :=
  (range n).foldlM (fun r sym => do
    let l ← infAt .lengths lengths sym
    if l = 0 then pure r
    else do
      check .offs (l ≤ infMaxbits)
      check .symbol (r.2 l < infMaxcodes)
      pure (update r.1 (r.2 l) (some sym), update r.2 l (r.2 l + 1)))
    (fun _ => none, offs)

/-- `inf_build`. -/
def infBuild (lengths : List ℕ) (n : ℕ) : InfM InfHuff := do
  let count ← infCount lengths n
  let count := update count 0 0
  let r ← infPlace lengths n (infOffs count)
  pure ⟨count, r.1⟩

/-- The loop of `inf_decode`, with the turns that are left. -/
def infDecodeFrom (z : InfIn) (h : InfHuff) : ℕ → ℕ → ℕ → ℕ → ℕ → InfM ℤ
  | 0, _, _, _, _ => do
    infError
    pure (-1)
  | n + 1, len, code, first, index => do
    let b ← infGetbit z
    let count ← h.countAt len
    let code := code ||| b
    if (code : ℤ) - first < count then h.symbolAt (index + ((code : ℤ) - first))
    else infDecodeFrom z h n (len + 1) (code <<< 1) ((first + count) <<< 1) (index + count)

/-- `inf_decode`. -/
def infDecode (z : InfIn) (h : InfHuff) : InfM ℤ := infDecodeFrom z h infMaxbits 1 0 0 0

/-! ## Compressed blocks -/

/-- `inf_len_base`. -/
def infLenBase : List ℕ :=
  [3, 4, 5, 6, 7, 8, 9, 10, 11, 13, 15, 17, 19, 23, 27, 31, 35, 43, 51, 59, 67, 83, 99, 115, 131,
    163, 195, 227, 258]

/-- `inf_len_extra`. -/
def infLenExtra : List ℕ :=
  [0, 0, 0, 0, 0, 0, 0, 0, 1, 1, 1, 1, 2, 2, 2, 2, 3, 3, 3, 3, 4, 4, 4, 4, 5, 5, 5, 5, 0]

/-- `inf_dist_base`. -/
def infDistBase : List ℕ :=
  [1, 2, 3, 4, 5, 7, 9, 13, 17, 25, 33, 49, 65, 97, 129, 193, 257, 385, 513, 769, 1025, 1537, 2049,
    3073, 4097, 6145, 8193, 12289, 16385, 24577]

/-- `inf_dist_extra`. -/
def infDistExtra : List ℕ :=
  [0, 0, 0, 0, 1, 1, 2, 2, 3, 3, 4, 4, 5, 5, 6, 6, 7, 7, 8, 8, 9, 9, 10, 10, 11, 11, 12, 12, 13, 13]

/-- The error exit of a loop. -/
def infStop {α : Type} : InfM (α ⊕ ℤ) := do
  infError
  pure (.inr (-1))

/-- The loop that copies a match. -/
def infCopy (z : InfIn) (len dist : ℕ) : InfM Unit :=
  (range len).foldlM (fun _ _ => do
    let s ← get
    check .ahead (0 < dist ∧ dist ≤ s.dstPos)
    check .dst (s.dstPos - dist < z.dstCap)
    z.put (s.dst (s.dstPos - dist))) ()

/-- A match in `inf_block`, with the symbol of its length. -/
def infMatch (z : InfIn) (dh : InfHuff) (sym : ℕ) : InfM (Unit ⊕ ℤ) := do
  if 29 ≤ sym then infStop
  else do
    let base ← infAt .table infLenBase sym
    let extra ← infAt .table infLenExtra sym
    let bits ← infGetbits z extra
    let dsym ← infDecode z dh
    let s ← get
    if s.error = true ∨ dsym < 0 ∨ 30 ≤ dsym then infStop
    else do
      let dbase ← infAt .table infDistBase dsym.toNat
      let dextra ← infAt .table infDistExtra dsym.toNat
      let dbits ← infGetbits z dextra
      let s ← get
      if s.dstPos < dbase + dbits then infStop
      else if z.dstCap < (s.dstPos + (base + bits)) % 2 ^ 32 then infStop
      else do
        infCopy z (base + bits) (dbase + dbits)
        pure (.inl ())

/-- A turn of the loop of `inf_block`. -/
def infBlockTurn (z : InfIn) (lh dh : InfHuff) (_ : Unit) : InfM (Unit ⊕ ℤ) := do
  let sym ← infDecode z lh
  let s ← get
  if s.error then pure (.inr (-1))
  else if sym = 256 then pure (.inr 0)
  else if sym < 256 then
    if z.dstCap ≤ s.dstPos then infStop
    else do
      z.put (UInt8.ofInt sym)
      pure (.inl ())
  else infMatch z dh (sym - 257).toNat

/-- `inf_block`. -/
def infBlock (z : InfIn) (fuel : ℕ) (lh dh : InfHuff) : InfM ℤ :=
  repeatM .fuel (infBlockTurn z lh dh) fuel ()

/-- The lengths of the fixed code. -/
def infFixedLengths : List ℕ :=
  replicate 144 8 ++ replicate 112 9 ++ replicate 24 7 ++ replicate 8 8

/-- `inf_fixed`. -/
def infFixed : InfM (InfHuff × InfHuff) := do
  let lh ← infBuild infFixedLengths 288
  let dh ← infBuild (replicate 30 5 ++ infFixedLengths.drop 30) 30
  pure (lh, dh)

/-- `inf_clc_order`. -/
def infClcOrder : List ℕ := [16, 17, 18, 0, 8, 7, 9, 6, 10, 5, 11, 4, 12, 3, 13, 2, 14, 1, 15]

/-- Write the next code length. -/
def infPush (lengths : List ℕ) (l : ℕ) : InfM (List ℕ) := do
  check .lengths (lengths.length < infMaxcodes)
  pure (lengths ++ [l])

/-- Repeat a code length, up to the number of them. -/
def infRepeat (total rep l : ℕ) (lengths : List ℕ) : InfM (List ℕ) :=
  (range rep).foldlM (fun lengths _ =>
    if lengths.length < total then infPush lengths l else pure lengths) lengths

/-- A repetition in `inf_dynamic`: the number of times is read from the input. -/
def infRun (z : InfIn) (total bits least l : ℕ) (lengths : List ℕ) :
    InfM (List ℕ ⊕ Option (List ℕ)) := do
  let rep ← infGetbits z bits
  let lengths ← infRepeat total (least + rep) l lengths
  pure (.inl lengths)

/-- A turn of the loop of `inf_dynamic` over the code lengths. -/
def infLengthsTurn (z : InfIn) (clh : InfHuff) (total : ℕ) (lengths : List ℕ) :
    InfM (List ℕ ⊕ Option (List ℕ)) := do
  if total ≤ lengths.length then pure (.inr (some lengths))
  else do
    let sym ← infDecode z clh
    let s ← get
    if s.error then pure (.inr none)
    else if sym < 16 then do
      let lengths ← infPush lengths (sym.toNat % 256)
      pure (.inl lengths)
    else if sym = 16 then
      if lengths.length = 0 then do
        infError
        pure (.inr none)
      else do
        let prev ← infAt .lengths lengths (lengths.length - 1)
        infRun z total 2 3 prev lengths
    else if sym = 17 then infRun z total 3 3 0 lengths
    else infRun z total 7 11 0 lengths

/-- The code length code of `inf_dynamic`. -/
def infClen (z : InfIn) (hclen : ℕ) : InfM (List ℕ) :=
  (range hclen).foldlM (fun clen i => do
    let pos ← infAt .table infClcOrder i
    let l ← infGetbits z 3
    check .lengths (pos < 19)
    pure (clen.set pos l)) (replicate 19 0)

/-- `inf_dynamic`; none when it returns an error. -/
def infDynamic (z : InfIn) : InfM (Option (InfHuff × InfHuff)) := do
  let hlit ← infGetbits z 5
  let hdist ← infGetbits z 5
  let hclen ← infGetbits z 4
  if infMaxlcodes < hlit + 257 ∨ infMaxdcodes < hdist + 1 then do
    infError
    pure none
  else do
    let clen ← infClen z (hclen + 4)
    let clh ← infBuild clen 19
    let total := hlit + 257 + (hdist + 1)
    let r ← repeatM .fuel (infLengthsTurn z clh total) (total + 1) []
    match r with
    | none => pure none
    | some lengths => do
      let s ← get
      if s.error then pure none
      else do
        let lh ← infBuild lengths (hlit + 257)
        let dh ← infBuild (lengths.drop (hlit + 257)) (hdist + 1)
        pure (some (lh, dh))

/-! ## Stored blocks -/

/-- The `memcpy` of `inf_stored`. -/
def infMemcpy (z : InfIn) (src dst len : ℕ) : InfM Unit :=
  (range len).foldlM (fun _ i => do
    let b ← z.srcAt (src + i)
    check .dst (dst + i < z.dstCap)
    let s ← get
    set { s with dst := update s.dst (dst + i) (UInt8.ofNat b) }) ()

/-- `inf_stored`. The complement of the length is skipped. -/
def infStored (z : InfIn) : InfM ℤ := do
  let s ← get
  set { s with bitbuf := 0, bitcnt := 0 }
  if z.srcLen < (s.srcPos + 4) % 2 ^ 32 then do
    infError
    pure (-1)
  else do
    let b₀ ← z.srcAt s.srcPos
    let b₁ ← z.srcAt ((s.srcPos + 1) % 2 ^ 32)
    let len := b₀ ||| b₁ <<< 8
    let pos := (s.srcPos + 4) % 2 ^ 32
    set { s with bitbuf := 0, bitcnt := 0, srcPos := pos }
    if z.srcLen < (pos + len) % 2 ^ 32 then do
      infError
      pure (-1)
    else if z.dstCap < (s.dstPos + len) % 2 ^ 32 then do
      infError
      pure (-1)
    else do
      infMemcpy z pos s.dstPos len
      let s ← get
      set { s with dstPos := (s.dstPos + len) % 2 ^ 32, srcPos := (pos + len) % 2 ^ 32 }
      pure 0

/-! ## `inflate_raw` -/

/-- The end of a block: the next one, or the result. -/
def infNext (final : ℕ) (rc : ℤ) : InfM (Unit ⊕ ℤ) := do
  let s ← get
  if rc ≠ 0 then pure (.inr (-1))
  else if final = 0 ∧ s.error = false then pure (.inl ())
  else if s.error then pure (.inr (-1))
  else pure (.inr 0)

/-- A turn of the loop of `inflate_raw`: a block. -/
def infTurn (z : InfIn) (fuel : ℕ) (_ : Unit) : InfM (Unit ⊕ ℤ) := do
  let final ← infGetbit z
  let type ← infGetbits z 2
  let s ← get
  if s.error then pure (.inr (-1))
  else if type = 0 then do
    let rc ← infStored z
    infNext final rc
  else if type = 1 then do
    let h ← infFixed
    let rc ← infBlock z fuel h.1 h.2
    infNext final rc
  else if type = 2 then do
    let r ← infDynamic z
    match r with
    | none => pure (.inr (-1))
    | some h => do
      let rc ← infBlock z fuel h.1 h.2
      infNext final rc
  else pure (.inr (-1))

/-- `inflate_raw`: the code it returns and the state it ends in, the position of which is
`*out_len` when the code is zero. -/
def inflateRaw (z : InfIn) (dst : ℕ → UInt8) (fuel : ℕ) : Except InfFault (ℤ × Inf) :=
  repeatM .fuel (infTurn z fuel) fuel () ⟨0, 0, 0, dst, 0, false⟩

end Makar
