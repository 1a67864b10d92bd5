import Mathlib
import Makar.Shadow

/-!
# One line per user

The password file read as a map from user names to salt and hash. A name has
no colon and no newline, so a line is of at most one user (`IsOf.unique`).
For lines that are complete, with the characters `shadow_find` reads after
the colon, its buffer does not matter, and what it returns is the first entry
of the user among the lines (`shadowFind_eq`).

Setting a password copies the lines of the other users, those that fit
(`copied`): the length of the file is not checked, so a line that does not
fit is left out, and a line that does not end takes the new one as its tail.
-/

namespace Makar

open List

namespace Shadow

variable {user v line text salt hash : List Byte} {buf : ℕ → Byte} {pos : ℕ}

/-- **A user name**: up to 64 characters, with no colon, newline or NUL. -/
structure Name (user : List Byte) : Prop where
  ne_nil : user ≠ []
  length_le : user.length ≤ 64
  colon : Makar.colon ∉ user
  newline : Makar.newline ∉ user
  nul : 0 ∉ user

/-! ## Whose line it is -/

/-- A line of a user is the name, a colon, and the rest. -/
theorem isOf_iff : IsOf user line ↔ ∃ rest, line = user ++ colon :: rest := by
  constructor
  · rintro ⟨htake, hcolon⟩
    have hlt : user.length < line.length := by
      by_contra hge
      rw [getD_eq_getElem?_getD, getElem?_eq_none (Nat.le_of_not_lt hge)] at hcolon
      exact absurd hcolon (by decide)
    refine ⟨line.drop (user.length + 1), ?_⟩
    rw [getD_eq_getElem?_getD, getElem?_eq_getElem hlt, Option.getD_some] at hcolon
    have hline := take_append_drop user.length line
    rw [htake, drop_eq_getElem_cons hlt, hcolon] at hline
    exact hline.symm
  · rintro ⟨rest, rfl⟩
    refine ⟨take_left, ?_⟩
    rw [getD_eq_getElem?_getD, getElem?_append_right (Nat.le_refl _), Nat.sub_self]
    rfl

/-- The first colon of a line of a user ends the name. -/
theorem idxOf_colon (hu : colon ∉ user) (h : IsOf user line) : line.idxOf colon = user.length := by
  obtain ⟨r, rfl⟩ := isOf_iff.1 h
  rw [idxOf_append_of_notMem hu, idxOf_cons_self, Nat.add_zero]

/-- **A line is of one user.** -/
theorem IsOf.unique (hu : colon ∉ user) (hv : colon ∉ v) (h₁ : IsOf user line)
    (h₂ : IsOf v line) : user = v := by
  have hlen : user.length = v.length := (idxOf_colon hu h₁).symm.trans (idxOf_colon hv h₂)
  rw [← h₁.1, hlen, h₂.1]

/-- The newline at the end of a line is not part of the name. -/
theorem lineBody_of_isOf (hu : newline ∉ user) (rest : List Byte) :
    lineBody (user ++ colon :: rest) = user ++ colon :: lineBody rest := by
  unfold lineBody
  rw [takeWhile_append_of_pos, takeWhile_cons_of_pos (by decide)]
  intro c hc
  rw [decide_eq_true_iff]
  rintro rfl
  exact hu hc

theorem isOf_lineBody (hu : newline ∉ user) : IsOf user (lineBody line) ↔ IsOf user line := by
  constructor
  · intro h
    obtain ⟨r, hr⟩ := isOf_iff.1 h
    have hsplit := takeWhile_append_dropWhile (p := fun c => decide (c ≠ newline)) (l := line)
    refine isOf_iff.2 ⟨r ++ line.dropWhile (fun c => decide (c ≠ newline)), ?_⟩
    rw [← cons_append, ← append_assoc, ← hr]
    exact hsplit.symm
  · intro h
    obtain ⟨r, rfl⟩ := isOf_iff.1 h
    rw [lineBody_of_isOf hu]
    exact isOf_iff.2 ⟨_, rfl⟩

/-! ## The entry on a line -/

/-- What stands after the name and the colon, up to the end of the line. -/
def fields (user line : List Byte) : List Byte := lineBody (line.drop (user.length + 1))

/-- The entry of the user on the line, read from the line alone. -/
def entryOf (user line : List Byte) : Option (List Byte × List Byte) :=
  if IsOf user line ∧ (fields user line).take 4 = mhTag ∧ (fields user line).getD 20 0 = dollar then
    some ((List.range 16).map (fun i => (fields user line).getD (4 + i) 0),
      (List.range 16).map (fun i => (fields user line).getD (21 + i) 0))
  else none

/-- What follows the first colon has the characters that `shadow_find` reads of
it: the salt if it begins with `$mh$`, and the hash if there is a `$` after
the salt. -/
def Full (f : List Byte) : Prop :=
  f.take 4 = mhTag → 20 ≤ f.length ∧ (f.getD 20 0 = dollar → 37 ≤ f.length)

/-- **A line is complete** if what follows its first colon is. -/
def Complete (line : List Byte) : Prop := Full (lineBody (line.drop (line.idxOf colon + 1)))

instance (line : List Byte) : Decidable (Complete line) :=
  inferInstanceAs (Decidable (_ → _ ∧ (_ → _)))

theorem complete_iff (hu : colon ∉ user) (hof : IsOf user line) :
    Complete line ↔ Full (fields user line) := by
  unfold Complete fields
  rw [idxOf_colon hu hof]

theorem drop_name (user r : List Byte) : (user ++ colon :: r).drop (user.length + 1) = r := by
  rw [← singleton_append, ← append_assoc]
  exact drop_left' (by simp)

theorem getD_drop (l : List Byte) (n i : ℕ) : (l.drop n).getD i 0 = l.getD (n + i) 0 := by
  rw [getD_eq_getElem?_getD, getElem?_drop, ← getD_eq_getElem?_getD]

/-- The line without its newline agrees with the line. -/
theorem getD_lineBody {j : ℕ} (hj : j < (lineBody line).length) :
    (lineBody line).getD j 0 = line.getD j 0 := by
  have hsplit := takeWhile_append_dropWhile (p := fun c => decide (c ≠ newline)) (l := line)
  unfold lineBody at hj ⊢
  rw [getD_eq_getElem?_getD, getD_eq_getElem?_getD]
  nth_rewrite 2 [← hsplit]
  rw [getElem?_append_left hj]

/-- **On a complete line the buffer does not matter.** -/
theorem findLine_eq (hu : Name user) (hcomplete : IsOf user line → Complete line)
    (hbuf : ∀ j < line.length, buf (pos + j) = line.getD j 0) :
    findLine buf user pos line = entryOf user line := by
  simp only [findLine, entryOf, isOf_lineBody hu.newline]
  by_cases hof : IsOf user line
  · have hbody : (lineBody line).drop (user.length + 1) = fields user line := by
      obtain ⟨r, rfl⟩ := isOf_iff.1 hof
      rw [lineBody_of_isOf hu.newline, fields, drop_name, drop_name]
    have hlen : (lineBody line).length = user.length + 1 + (fields user line).length := by
      obtain ⟨r, rfl⟩ := isOf_iff.1 hof
      rw [lineBody_of_isOf hu.newline, fields, drop_name]
      simp only [length_append, length_cons]
      omega
    rw [hbody]
    by_cases htag : (fields user line).take 4 = mhTag
    · obtain ⟨hsaltLen, hlong⟩ := (complete_iff hu.colon hof).1 (hcomplete hof) htag
      -- a character read is one of the line, or the NUL at its end
      have hrd : ∀ i, 4 + i ≤ (fields user line).length →
          (if pos + user.length + 1 + 4 + i = pos + (lineBody line).length then 0
          else buf (pos + user.length + 1 + 4 + i)) = (fields user line).getD (4 + i) 0 := by
        intro i hi
        split_ifs with hend
        · rw [getD_eq_default _ _ (by omega)]
        have hj : user.length + 1 + (4 + i) < (lineBody line).length := by omega
        have hle : (lineBody line).length ≤ line.length :=
          (takeWhile_sublist _).length_le
        rw [show pos + user.length + 1 + 4 + i = pos + (user.length + 1 + (4 + i)) by omega,
          hbuf _ (by omega), ← hbody, getD_drop, getD_lineBody hj]
      have hsalt : (range 16).map (fun i => if pos + user.length + 1 + 4 + i
          = pos + (lineBody line).length then 0 else buf (pos + user.length + 1 + 4 + i))
          = (range 16).map (fun i => (fields user line).getD (4 + i) 0) :=
        map_congr_left (fun i hi => hrd i (by have := mem_range.1 hi; omega))
      have hmark := hrd 16 hsaltLen
      by_cases hdollar : (fields user line).getD 20 0 = dollar
      swap
      · simp only [hof, htag, true_and, and_self, if_true, hmark, hdollar, if_false]
      have hlong := hlong hdollar
      have hhash : (range 16).map (fun i => if pos + user.length + 1 + 4 + 17 + i
          = pos + (lineBody line).length then 0 else buf (pos + user.length + 1 + 4 + 17 + i))
          = (range 16).map (fun i => (fields user line).getD (21 + i) 0) := by
        refine map_congr_left (fun i hi => ?_)
        have := mem_range.1 hi
        have h := hrd (17 + i) (by omega)
        rw [← Nat.add_assoc, ← Nat.add_assoc] at h
        exact h
      simp only [hof, htag, true_and, and_self, if_true, hmark, hsalt, hhash]
    · simp [htag]
  · simp [hof]

/-! ## Finding, as a function of the lines -/

/-- **Over complete lines the loop finds the first entry of the user.** -/
theorem findLines_eq (hu : Name user) {ls : List (List Byte)}
    (hcomplete : ∀ l ∈ ls, IsOf user l → Complete l)
    (hbuf : ∀ j < ls.flatten.length, buf (pos + j) = ls.flatten.getD j 0) :
    findLines buf user pos ls = ls.findSome? (entryOf user) := by
  induction ls generalizing pos with
  | nil => rfl
  | cons l ls ih =>
    have hline : findLine buf user pos l = entryOf user l := by
      refine findLine_eq hu (hcomplete l mem_cons_self) (fun j hj => ?_)
      rw [hbuf j (by simp only [flatten_cons, length_append]; omega), flatten_cons,
        getD_append _ _ _ _ hj]
    have hrest : findLines buf user (pos + l.length) ls = ls.findSome? (entryOf user) := by
      refine ih (fun m hm => hcomplete m (mem_cons_of_mem l hm)) (fun j hj => ?_)
      rw [Nat.add_assoc, hbuf (l.length + j) (by
        simp only [flatten_cons, length_append]
        omega), flatten_cons, getD_append_right _ _ _ _ (by omega),
        Nat.add_sub_cancel_left]
    rw [findLines, hline, findSome?_cons, hrest]
    cases entryOf user l <;> rfl

/-- The text walked is the start of the file. -/
theorem load_visible (file : List Byte) (fbuf : ℕ → Byte) {j : ℕ}
    (hj : j < (visible file).length) : load file fbuf j = (visible file).getD j 0 := by
  have hsplit := takeWhile_append_dropWhile (p := fun c : Byte => decide (c ≠ 0))
    (l := file.take (shadowMax - 1))
  have hle : (visible file).length ≤ (file.take (shadowMax - 1)).length :=
    (takeWhile_sublist _).length_le
  unfold load
  rw [if_pos (by omega)]
  nth_rewrite 1 [← hsplit]
  exact getD_append _ _ _ _ hj

/-- The result of a search, as `shadow_find` returns it. -/
def FindResult.ofOption : Option (List Byte × List Byte) → FindResult
  | none => .notFound
  | some (salt, stored) => .found salt stored

/-- **`shadow_find` for a user whose lines are complete.** -/
theorem shadowFind_eq (hu : Name user) {st : Shadow} {file : List Byte} (hfile : st.file = some file)
    (hcomplete : ∀ l ∈ splitLines (visible file), IsOf user l → Complete l) :
    (st.shadowFind user).1
      = FindResult.ofOption ((splitLines (visible file)).findSome? (entryOf user)) := by
  have hlines : findLines (load file st.fbuf) user 0 (splitLines (visible file))
      = (splitLines (visible file)).findSome? (entryOf user) := by
    refine findLines_eq hu hcomplete ?_
    rw [flatten_splitLines]
    intro j hj
    rw [Nat.zero_add]
    exact load_visible file st.fbuf hj
  simp only [shadowFind, hfile, hlines]
  cases (splitLines (visible file)).findSome? (entryOf user) with
  | none => rfl
  | some r => rfl

/-- The lines `shadow_set_password` means to keep. -/
def kept (user text : List Byte) : List (List Byte) :=
  (splitLines text).filter (fun l => decide (¬ IsOf user l))

/-- The lines that `shadow_set_password` copies: those of other users that fit,
when the buffer holds `n` characters. -/
def copied (user : List Byte) : ℕ → List (List Byte) → List (List Byte)
  | _, [] => []
  | n, l :: ls =>
    if ¬ IsOf user l ∧ n + l.length < shadowMax - 1 then l :: copied user (n + l.length) ls
    else copied user n ls

/-- The copying loop copies those lines. -/
theorem foldl_copyLine (user : List Byte) (ls : List (List Byte)) (out : List Byte) :
    ls.foldl (copyLine user) out = out ++ (copied user out.length ls).flatten := by
  induction ls generalizing out with
  | nil => simp [copied]
  | cons l ls ih =>
    rw [foldl_cons, ih, copyLine, copied]
    split_ifs
    · rw [length_append, flatten_cons, append_assoc]
    · rfl

theorem copied_sublist (user : List Byte) (n : ℕ) (ls : List (List Byte)) :
    (copied user n ls).Sublist (ls.filter (fun l => decide (¬ IsOf user l))) := by
  induction ls generalizing n with
  | nil => exact List.Sublist.refl _
  | cons l ls ih =>
    rw [copied]
    split_ifs with hcopy
    · rw [filter_cons_of_pos (by simp [hcopy.1])]
      exact (ih _).cons_cons l
    · exact (ih n).trans ((List.sublist_cons_self l ls).filter _)

/-- The text walked has no NUL. -/
theorem nul_notMem_visible (file : List Byte) : (0 : Byte) ∉ visible file := by
  intro h
  have := mem_takeWhile_imp h
  simp at this

/-- A text that fits the buffer and has no NUL is walked whole. -/
theorem visible_eq_self (hlen : text.length < shadowMax) (hnul : (0 : Byte) ∉ text) :
    visible text = text := by
  unfold visible
  rw [take_of_length_le (by omega), takeWhile_eq_self_iff]
  intro c hc
  rw [decide_eq_true_iff]
  rintro rfl
  exact hnul hc

/-- Sixteen hexadecimal digits, as salts and hashes are. -/
structure Hex (l : List Byte) : Prop where
  length : l.length = 16
  mem : ∀ c ∈ l, c ∈ hexDigits

theorem hex_generateSalt (ticks rtcsec : BitVec 32) : Hex (generateSalt ticks rtcsec) :=
  ⟨length_hex16 _, fun _ => mem_hexDigits_of_mem⟩

theorem hex_computeHash (salt password : List Byte) : Hex (computeHash salt password) :=
  ⟨length_hex16 _, fun _ => mem_hexDigits_of_mem⟩

/-- What follows the name on the new line. -/
def entryFields (salt hash : List Byte) : List Byte :=
  mhTag ++ salt ++ [dollar] ++ hash ++ List.replicate 7 colon

theorem newEntry_eq (user salt hash : List Byte) :
    newEntry user salt hash = user ++ colon :: (entryFields salt hash ++ [newline]) := by
  simp [newEntry, entryFields]

theorem length_newEntry (hs : Hex salt) (hh : Hex hash) :
    (newEntry user salt hash).length = user.length + 46 := by
  simp [newEntry, mhTag, hs.length, hh.length]

/-- A character of the new line after the name is a digit, a `$`, an `m`, an
`h` or a colon. -/
theorem mem_entryFields (hs : Hex salt) (hh : Hex hash) {c : Byte}
    (hc : c ∈ entryFields salt hash) : c ≠ newline ∧ c ≠ 0 := by
  have hset : c ∈ colon :: dollar :: mhTag ++ hexDigits := by
    simp only [entryFields, mem_append, mem_singleton, mem_replicate] at hc
    rcases hc with (((hc | hc) | hc) | hc) | hc
    · simp [hc]
    · simp [hs.mem c hc]
    · simp [hc]
    · simp [hh.mem c hc]
    · simp [hc.2]
  have hall : ∀ x ∈ colon :: dollar :: mhTag ++ hexDigits, x ≠ newline ∧ x ≠ 0 := by decide
  exact hall c hset

theorem terminated_newEntry (hu : Name user) (hs : Hex salt) (hh : Hex hash) :
    Terminated (newEntry user salt hash) := by
  refine ⟨user ++ colon :: entryFields salt hash, ?_, ?_⟩
  · rw [mem_append, mem_cons]
    rintro (h | h | h)
    · exact hu.newline h
    · exact absurd h (by decide)
    · exact (mem_entryFields hs hh h).1 rfl
  · rw [newEntry_eq]
    simp

theorem isOf_newEntry : IsOf user (newEntry user salt hash) :=
  isOf_iff.2 ⟨_, newEntry_eq user salt hash⟩

theorem nul_notMem_newEntry (hu : Name user) (hs : Hex salt) (hh : Hex hash) :
    (0 : Byte) ∉ newEntry user salt hash := by
  rw [newEntry_eq, mem_append, mem_cons, mem_append, mem_singleton]
  rintro (h | h | h | h)
  · exact hu.nul h
  · exact absurd h (by decide)
  · exact (mem_entryFields hs hh h).2 rfl
  · exact absurd h (by decide)

theorem fields_newEntry (hs : Hex salt) (hh : Hex hash) :
    fields user (newEntry user salt hash) = entryFields salt hash := by
  unfold fields lineBody
  rw [newEntry_eq, drop_name, takeWhile_append_of_pos]
  · simp [newline]
  · intro c hc
    rw [decide_eq_true_iff]
    exact (mem_entryFields hs hh hc).1

/-- A list of sixteen is read back by index. -/
theorem map_range_getD {l : List Byte} (h : l.length = 16) :
    (List.range 16).map (fun i => l.getD i 0) = l := by
  refine ext_getElem (by simp [h]) (fun i h₁ h₂ => ?_)
  rw [getElem_map, getElem_range, getD_eq_getElem _ _ h₂]

/-- **The new line carries the new salt and hash.** -/
theorem entryOf_newEntry (hs : Hex salt) (hh : Hex hash) :
    entryOf user (newEntry user salt hash) = some (salt, hash) := by
  have hsalt : ∀ i < 16, (entryFields salt hash).getD (4 + i) 0 = salt.getD i 0 := by
    intro i hi
    have := hs.length
    simp only [entryFields, append_assoc]
    rw [getD_append_right _ _ _ _ (by simp [mhTag]), getD_append _ _ _ _ (by
      simp only [mhTag, length_cons, length_nil]
      omega)]
    congr 1
    simp [mhTag]
  have hdollar : (entryFields salt hash).getD 20 0 = dollar := by
    have := hs.length
    simp only [entryFields, append_assoc]
    rw [getD_append_right _ _ _ _ (by simp [mhTag]), getD_append_right _ _ _ _ (by
      simp only [mhTag, length_cons, length_nil]
      omega)]
    simp [mhTag, hs.length]
  have hhash : ∀ i < 16, (entryFields salt hash).getD (21 + i) 0 = hash.getD i 0 := by
    intro i hi
    have := hh.length
    have hfront : (mhTag ++ salt ++ [dollar]).length = 21 := by simp [mhTag, hs.length]
    unfold entryFields
    rw [append_assoc, getD_append_right _ _ _ _ (by omega), hfront,
      Nat.add_sub_cancel_left, getD_append _ _ _ _ (by omega)]
  have htag : (entryFields salt hash).take 4 = mhTag := by
    simp [entryFields, mhTag]
  unfold entryOf
  rw [fields_newEntry hs hh, if_pos ⟨isOf_newEntry, htag, hdollar⟩]
  have h₁ : (range 16).map (fun i => (entryFields salt hash).getD (4 + i) 0) = salt :=
    (map_congr_left (fun i hi => hsalt i (mem_range.1 hi))).trans
      (map_range_getD hs.length)
  have h₂ : (range 16).map (fun i => (entryFields salt hash).getD (21 + i) 0) = hash :=
    (map_congr_left (fun i hi => hhash i (mem_range.1 hi))).trans
      (map_range_getD hh.length)
  rw [h₁, h₂]

theorem complete_newEntry (hu : Name user) (hs : Hex salt) (hh : Hex hash) :
    Complete (newEntry user salt hash) := by
  rw [complete_iff hu.colon isOf_newEntry, fields_newEntry hs hh]
  intro _
  simp [entryFields, mhTag, hs.length, hh.length]

end Shadow

end Makar
