import Makar.Microhash

/-!
# The password file

The model of `auth/shadow.c` over a file that is read up to the size of a
buffer and written whole. A line of `/etc/shadow` is a user name, a colon,
and, for a user with a password, `$mh$`, sixteen characters of salt, `$` and
sixteen characters of hash.

`shadow_find` searches a copy of the file in a static buffer. It puts a NUL
at the end of the line it looks at, and then copies the sixteen characters of
salt and of hash from fixed distances after the name, whether the line is
that long or not; what it reads past the end of a short line is the NUL,
the lines after it, and, past the text, what the buffer held before. The
model keeps that buffer, as a function of the index, so that these reads have
a value.

`shadow_set_password` copies the lines of other users to a second buffer,
each if it still fits, and appends the new line if that still fits.
-/

namespace Makar

open List

/-- `':'`. -/
def colon : Byte := 0x3A

/-- `'\n'`. -/
def newline : Byte := 0x0A

/-- `'$'`. -/
def dollar : Byte := 0x24

/-- `"$mh$"`. -/
def mhTag : List Byte := [0x24, 0x6D, 0x68, 0x24]

/-- Size of the buffers (`SHADOW_MAX`). -/
def shadowMax : ℕ := 4096

/-- The state `shadow.c` works on. -/
structure Shadow where
  /-- The contents of `/etc/shadow`, if it exists. -/
  file : Option (List Byte)
  /-- The static buffer of `shadow_find`, and the memory after it. -/
  fbuf : ℕ → Byte

/-- What `shadow_find` returns. -/
inductive FindResult where
  /-- The file could not be read. -/
  | ioError
  /-- No line for the user. -/
  | notFound
  /-- The salt and the hash of the user's line. -/
  | found (salt stored : List Byte)
  deriving DecidableEq, Repr

namespace Shadow

/-! ## Salt and hash -/

/-- The bytes of a word, the lowest first. -/
def leBytes (w : BitVec 32) : List Byte :=
  [w.setWidth 8, (w >>> 8).setWidth 8, (w >>> 16).setWidth 8, (w >>> 24).setWidth 8]

/-- `generate_salt`, from the tick counter and the clock. -/
def generateSalt (ticks rtcsec : BitVec 32) : List Byte :=
  hex16 (microhashU64 (leBytes ticks ++ leBytes rtcsec))

/-- `compute_hash`: the hash of the salt followed by the password, cut to the
buffer. -/
def computeHash (salt password : List Byte) : List Byte :=
  microhashHex16 ((salt ++ password).take 1024)

/-! ## Lines -/

/-- The text the loops walk: what fits the buffer, up to the first NUL. -/
def visible (file : List Byte) : List Byte :=
  (file.take (shadowMax - 1)).takeWhile (fun c => decide (c ≠ 0))

/-- The lines of a text, each with the newline that ends it. -/
def splitLines : List Byte → List (List Byte)
  | [] => []
  | c :: cs =>
    if c = newline then [c] :: splitLines cs
    else
      match splitLines cs with
      | [] => [[c]]
      | l :: ls => (c :: l) :: ls

/-- The line without its newline. -/
def lineBody (line : List Byte) : List Byte := line.takeWhile (fun c => decide (c ≠ newline))

/-- The line is of that user: `strncmp(line, username, ulen) == 0` and
`line[ulen] == ':'`. -/
def IsOf (user line : List Byte) : Prop :=
  line.take user.length = user ∧ line.getD user.length 0 = colon

instance (user line : List Byte) : Decidable (IsOf user line) :=
  inferInstanceAs (Decidable (_ ∧ _))

/-! ## Finding -/

/-- The buffer after `vfs_read_file` and the terminating NUL. -/
def load (file : List Byte) (fbuf : ℕ → Byte) (k : ℕ) : Byte :=
  if k < (file.take (shadowMax - 1)).length then (file.take (shadowMax - 1)).getD k 0
  else if k = (file.take (shadowMax - 1)).length then 0
  else fbuf k

/-- What `shadow_find` makes of the line at `pos`. The line is terminated by a
NUL while it is looked at; the salt and the hash are read by distance. -/
def findLine (buf : ℕ → Byte) (user : List Byte) (pos : ℕ) (line : List Byte) :
    Option (List Byte × List Byte) :=
  let body := lineBody line
  let rd := fun k => if k = pos + body.length then 0 else buf k
  if IsOf user body ∧ (body.drop (user.length + 1)).take 4 = mhTag then
    let p := pos + user.length + 1 + 4
    if rd (p + 16) = dollar then
      some ((List.range 16).map (fun i => rd (p + i)), (List.range 16).map (fun i => rd (p + 17 + i)))
    else none
  else none

/-- The loop of `shadow_find`: the first line that gives an entry. -/
def findLines (buf : ℕ → Byte) (user : List Byte) :
    ℕ → List (List Byte) → Option (List Byte × List Byte)
  | _, [] => none
  | pos, line :: lines =>
    match findLine buf user pos line with
    | some r => some r
    | none => findLines buf user (pos + line.length) lines

/-- `shadow_find`. -/
def shadowFind (user : List Byte) (st : Shadow) : FindResult × Shadow :=
  match st.file with
  | none => (.ioError, st)
  | some file =>
    let buf := load file st.fbuf
    match findLines buf user 0 (splitLines (visible file)) with
    | none => (.notFound, { st with fbuf := buf })
    | some (salt, stored) => (.found salt stored, { st with fbuf := buf })

/-- `"root"`. -/
def rootName : List Byte := [0x72, 0x6F, 0x6F, 0x74]

/-- `shadow_verify`: zero when the password is accepted. -/
def shadowVerify (user password : List Byte) (st : Shadow) : ℤ × Shadow :=
  match shadowFind user st with
  | (.ioError, st) => (if user = rootName ∧ password = [] then 0 else -1, st)
  | (.notFound, st) => (-1, st)
  | (.found salt stored, st) => (if computeHash salt password = stored then 0 else -1, st)

/-! ## Setting -/

/-- The new line. -/
def newEntry (user salt hash : List Byte) : List Byte :=
  user ++ [colon] ++ mhTag ++ salt ++ [dollar] ++ hash ++ List.replicate 7 colon ++ [newline]

/-- One turn of the copying loop of `shadow_set_password`: a line of the user
is skipped, and a line that does not fit is dropped. -/
def copyLine (user out line : List Byte) : List Byte :=
  if ¬ IsOf user line ∧ out.length + line.length < shadowMax - 1 then out ++ line else out

/-- What `shadow_set_password` writes: the copied lines, and the new line if it
fits. -/
def rewrite (user entry text : List Byte) : List Byte :=
  let out := (splitLines text).foldl (copyLine user) []
  if out.length + entry.length < shadowMax then out ++ entry else out

/-- `shadow_set_password`; `wrote` is whether `vfs_write_file` succeeds. A file
that does not exist is taken as empty. -/
def shadowSetPassword (ticks rtcsec : BitVec 32) (wrote : Bool) (user password : List Byte)
    (st : Shadow) : ℤ × Shadow :=
  let salt := generateSalt ticks rtcsec
  let hash := computeHash salt password
  if 64 < user.length then (-1, st)
  else
    let out := rewrite user (newEntry user salt hash) (visible (st.file.getD []))
    if wrote then (0, { st with file := some out }) else (-1, st)

/-! ## Lines of a text -/

variable {text line : List Byte} {c : Byte}

/-- The lines make up the text. -/
@[simp] theorem flatten_splitLines (text : List Byte) : (splitLines text).flatten = text := by
  induction text with
  | nil => rfl
  | cons c cs ih =>
    rw [splitLines]
    split_ifs
    · simp [ih]
    · cases hs : splitLines cs with
      | nil =>
        rw [hs] at ih
        simp [← ih]
      | cons l ls =>
        rw [hs] at ih
        simpa using ih

/-- The first line of a text that has one. -/
theorem splitLines_cons_line (b rest : List Byte) (hb : newline ∉ b) :
    splitLines (b ++ newline :: rest) = (b ++ [newline]) :: splitLines rest := by
  induction b with
  | nil => simp [splitLines]
  | cons c cs ih =>
    rw [mem_cons, not_or] at hb
    rw [cons_append, splitLines, if_neg (Ne.symm hb.1), ih hb.2]
    rfl

/-- A text without a newline is one line. -/
theorem splitLines_of_notMem (hne : text ≠ []) (h : newline ∉ text) : splitLines text = [text] := by
  induction text with
  | nil => exact absurd rfl hne
  | cons c cs ih =>
    rw [mem_cons, not_or] at h
    rw [splitLines, if_neg (Ne.symm h.1)]
    by_cases hcs : cs = []
    · subst hcs
      rfl
    · rw [ih hcs h.2]

/-- The line ends in its only newline. -/
def Terminated (line : List Byte) : Prop := ∃ b, newline ∉ b ∧ line = b ++ [newline]

/-- **Terminated lines put together split into themselves.** -/
theorem splitLines_flatten_append {ls : List (List Byte)} (h : ∀ l ∈ ls, Terminated l)
    (rest : List Byte) : splitLines (ls.flatten ++ rest) = ls ++ splitLines rest := by
  induction ls with
  | nil => rfl
  | cons l ls ih =>
    obtain ⟨b, hb, rfl⟩ := h l mem_cons_self
    have hls := ih (fun l hl => h l (mem_cons_of_mem _ hl))
    rw [flatten_cons, append_assoc, append_assoc, singleton_append,
      splitLines_cons_line b _ hb, hls, cons_append]

/-- **The lines of a text** are terminated, but for the last when the text does
not end in a newline. -/
theorem splitLines_shape (text : List Byte) :
    ∃ ls tail, (∀ l ∈ ls, Terminated l) ∧ newline ∉ tail ∧ text = ls.flatten ++ tail
      ∧ splitLines text = ls ++ if tail = [] then [] else [tail] := by
  induction text with
  | nil => exact ⟨[], [], by simp, by simp, rfl, rfl⟩
  | cons c cs ih =>
    obtain ⟨ls, tail, hls, htail, htext, hsplit⟩ := ih
    by_cases hc : c = newline
    · refine ⟨[c] :: ls, tail, ?_, htail, ?_, ?_⟩
      · intro l hl
        rcases mem_cons.1 hl with rfl | hl
        · exact ⟨[], by simp, by rw [hc]; rfl⟩
        · exact hls l hl
      · rw [htext]
        rfl
      · rw [splitLines, if_pos hc, hsplit]
        rfl
    · cases ls with
      | nil =>
        rw [flatten_nil, nil_append] at htext
        subst htext
        refine ⟨[], c :: cs, by simp, ?_, rfl, ?_⟩
        · rw [mem_cons, not_or]
          exact ⟨Ne.symm hc, htail⟩
        · rw [splitLines_of_notMem (by simp)]
          · rfl
          · rw [mem_cons, not_or]
            exact ⟨Ne.symm hc, htail⟩
      | cons l ls =>
        obtain ⟨b, hb, rfl⟩ := hls l mem_cons_self
        refine ⟨(c :: (b ++ [newline])) :: ls, tail, ?_, htail, ?_, ?_⟩
        · intro l hl
          rcases mem_cons.1 hl with rfl | hl
          · refine ⟨c :: b, ?_, rfl⟩
            rw [mem_cons, not_or]
            exact ⟨Ne.symm hc, hb⟩
          · exact hls l (mem_cons_of_mem _ hl)
        · rw [htext]
          rfl
        · rw [splitLines, if_neg hc, hsplit]
          rfl

/-- A line with a newline in it is terminated. -/
theorem terminated_of_mem (h : line ∈ splitLines text) (hn : newline ∈ line) : Terminated line := by
  obtain ⟨ls, tail, hls, htail, -, hsplit⟩ := splitLines_shape text
  rw [hsplit] at h
  rcases mem_append.1 h with h | h
  · exact hls line h
  · split_ifs at h with ht
    · cases h
    · rw [mem_singleton.1 h] at hn
      exact absurd hn htail

/-- The characters of a line are characters of the text. -/
theorem mem_of_mem_splitLines (h : line ∈ splitLines text) (hc : c ∈ line) : c ∈ text := by
  rw [← flatten_splitLines text]
  exact mem_flatten.2 ⟨line, h, hc⟩

end Shadow

end Makar
