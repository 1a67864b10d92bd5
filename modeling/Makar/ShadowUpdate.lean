import Makar.ShadowFile

/-!
# Setting a password

What `shadow_set_password` does to the map the file stands for, and what a
later `shadow_verify` accepts.

The new line gets a line of its own when it fits after the lines copied and
each of these ends in a newline (`Room`). On complete lines that, and that no
user's first entry is on a line left out, is when the update is right. The password is checked
through a hash that does not see every character: of the salt and the
password together, the second half of each block of thirty-two bytes is
ignored, and the salt takes up the first sixteen bytes.
-/

namespace Makar

open List

namespace Shadow

variable {user v line text salt hash : List Byte} {st : Shadow} {file : List Byte}

/-! ## The file after the update -/

/-- The lines copied. -/
abbrev copies (user text : List Byte) : List (List Byte) := copied user 0 (splitLines text)

/-- **The new line gets a line of its own**: it fits after the lines copied, and
each of them ends in a newline. -/
structure Room (user text : List Byte) : Prop where
  fits : (copies user text).flatten.length + (user.length + 46) < shadowMax
  ends : ∀ l ∈ copies user text, newline ∈ l

theorem mem_kept : line ∈ kept user text ↔ line ∈ splitLines text ∧ ¬ IsOf user line := by
  simp [kept]

/-- A line that is copied is one to be kept. -/
theorem mem_kept_of_mem_copies (h : line ∈ copies user text) : line ∈ kept user text :=
  (copied_sublist user 0 (splitLines text)).subset h

/-- The file written is the lines copied, and the new line if it fits. -/
theorem rewrite_eq (hs : Hex salt) (hh : Hex hash) :
    rewrite user (newEntry user salt hash) text = (copies user text).flatten ++
      if (copies user text).flatten.length + (user.length + 46) < shadowMax
      then newEntry user salt hash else [] := by
  unfold rewrite
  rw [foldl_copyLine, nil_append, length_nil, length_newEntry hs hh]
  dsimp only
  split_ifs
  · rfl
  · rw [append_nil]

/-- No line copied is the user's. -/
theorem not_isOf_of_mem_copies (user text : List Byte) : ∀ l ∈ copies user text, ¬ IsOf user l :=
  fun _ hl => (mem_kept.1 (mem_kept_of_mem_copies hl)).2

theorem nul_notMem_copies (hnul : (0 : Byte) ∉ text) : (0 : Byte) ∉ (copies user text).flatten := by
  intro hmem
  obtain ⟨l, hl, hc⟩ := mem_flatten.1 hmem
  exact hnul (mem_of_mem_splitLines (mem_kept.1 (mem_kept_of_mem_copies hl)).1 hc)

/-- The file is read back whole when the new line is written. -/
theorem visible_rewrite (hu : Name user) (hs : Hex salt) (hh : Hex hash)
    (hfits : (copies user text).flatten.length + (user.length + 46) < shadowMax)
    (hnul : (0 : Byte) ∉ text) :
    visible (rewrite user (newEntry user salt hash) text)
      = (copies user text).flatten ++ newEntry user salt hash := by
  rw [rewrite_eq hs hh, if_pos hfits, visible_eq_self]
  · rw [length_append, length_newEntry hs hh]
    exact hfits
  · rw [mem_append]
    rintro (hmem | hmem)
    · exact nul_notMem_copies hnul hmem
    · exact nul_notMem_newEntry hu hs hh hmem

/-- The lines of the file written. -/
theorem splitLines_rewrite (hu : Name user) (hs : Hex salt) (hh : Hex hash) (h : Room user text)
    (hnul : (0 : Byte) ∉ text) :
    splitLines (visible (rewrite user (newEntry user salt hash) text))
      = copies user text ++ [newEntry user salt hash] := by
  have hterm : ∀ l ∈ copies user text ++ [newEntry user salt hash], Terminated l := by
    intro l hl
    rcases mem_append.1 hl with hl | hl
    · exact terminated_of_mem (mem_kept.1 (mem_kept_of_mem_copies hl)).1 (h.ends l hl)
    · rw [mem_singleton.1 hl]
      exact terminated_newEntry hu hs hh
  rw [visible_rewrite hu hs hh h.fits hnul]
  have hsplit := splitLines_flatten_append hterm []
  simpa [splitLines] using hsplit

/-- The state after a password has been set and the file written. -/
theorem shadowSetPassword_eq (hu : Name user) (ticks rtcsec : BitVec 32) (password : List Byte)
    (hfile : st.file = some file) :
    st.shadowSetPassword ticks rtcsec true user password
      = (0, { st with file := some (rewrite user (newEntry user (generateSalt ticks rtcsec)
          (computeHash (generateSalt ticks rtcsec) password)) (visible file)) }) := by
  have hle := hu.length_le
  simp only [shadowSetPassword, hfile, Option.getD_some, if_true,
    if_neg (Nat.not_lt.2 hle)]

/-- A line of another user gives the user nothing. -/
theorem entryOf_eq_none (h : ¬ IsOf user line) : entryOf user line = none := by
  simp [entryOf, h]

/-- **With room, the user gets the new entry.** -/
theorem shadowFind_self (hu : Name user) (hs : Hex salt) (hh : Hex hash) (h : Room user text)
    (hnul : (0 : Byte) ∉ text)
    (hfile : st.file = some (rewrite user (newEntry user salt hash) text)) :
    (st.shadowFind user).1 = .found salt hash := by
  have hlines := splitLines_rewrite hu hs hh h hnul
  have hcopies := not_isOf_of_mem_copies user text
  rw [shadowFind_eq hu hfile, hlines, findSome?_append,
    findSome?_eq_none_iff.2 (fun l hl => entryOf_eq_none (hcopies l hl))]
  · simp [entryOf_newEntry hs hh, FindResult.ofOption]
  · rw [hlines]
    intro l hl hof
    rcases mem_append.1 hl with hl | hl
    · exact absurd hof (hcopies l hl)
    · rw [mem_singleton.1 hl]
      exact complete_newEntry hu hs hh

theorem name_b : Name [0x62] := ⟨by decide, by decide, by decide, by decide, by decide⟩

/-- **A changed character of the password goes unseen** by the hash exactly when
it is in the first half of its run of thirty-two, where the salt before it has
shifted it into the half of a block that is not mixed. -/
theorem computeHash_eq_iff {p q : List Byte} {i : ℕ} (hs : salt.length = 16)
    (hlen : p.length ≤ 200) (hd : DifferAt p q i) :
    computeHash salt p = computeHash salt q ↔ i % 32 < 16 := by
  have hlt := hd.lt
  have hlength := hd.length
  have hshift : DifferAt (salt ++ p) (salt ++ q) (16 + i) := by
    refine ⟨by simp [hlength], by simp [hs, hlt], ?_, fun j hj => ?_⟩
    · rw [getD_append_right _ _ _ _ (by omega), getD_append_right _ _ _ _ (by omega),
        hs, Nat.add_sub_cancel_left]
      exact hd.ne
    · by_cases hjs : j < salt.length
      · rw [getD_append _ _ _ _ hjs, getD_append _ _ _ _ hjs]
      · rw [getD_append_right _ _ _ _ (by omega), getD_append_right _ _ _ _ (by omega)]
        exact hd.eq _ (by omega)
  unfold computeHash microhashHex16
  rw [take_of_length_le (by rw [length_append]; omega),
    take_of_length_le (by rw [length_append]; omega), hex16_injective.eq_iff,
    hshift.microhashU64_eq_iff]
  omega

/-- A check after a password was set on an empty file compares hashes. -/
theorem shadowVerify_after_set (hu : Name user) (ticks rtcsec : BitVec 32) (p q : List Byte)
    (hfile : st.file = some []) :
    ((st.shadowSetPassword ticks rtcsec true user p).2.shadowVerify user q).1
      = if computeHash (generateSalt ticks rtcsec) q = computeHash (generateSalt ticks rtcsec) p
        then 0 else -1 := by
  have hs := hex_generateSalt ticks rtcsec
  have hh := hex_computeHash (generateSalt ticks rtcsec) p
  have hroom : Room user (visible []) := by
    refine ⟨?_, fun l hl => nomatch hl⟩
    have := hu.length_le
    show 0 + (user.length + 46) < 4096
    omega
  have hnew : ∀ f, ({ st with file := some f } : Shadow).file = some f := fun _ => rfl
  have hfind := shadowFind_self hu hs hh hroom (nul_notMem_visible []) (hnew _)
  rw [shadowSetPassword_eq hu ticks rtcsec p hfile]
  unfold shadowVerify
  generalize hr : shadowFind user _ = r at hfind
  obtain ⟨res, st'⟩ := r
  have hfind : res = _ := hfind
  subst hfind
  rfl

/-- **What `shadow_verify` accepts** after a password was set on an empty file:
the password, and of the words of the same length that differ from it in one
character those where it is in the first half of its run of thirty-two. -/
theorem shadowVerify_iff (ticks rtcsec : BitVec 32) (user p q : List Byte) (i : ℕ) (st : Shadow)
    (hu : Name user) (hfile : st.file = some []) (hlen : p.length ≤ 200) (hd : DifferAt p q i) :
    let st' := (st.shadowSetPassword ticks rtcsec true user p).2
    (st.shadowSetPassword ticks rtcsec true user p).1 = 0
      ∧ (st'.shadowVerify user p).1 = 0
      ∧ ((st'.shadowVerify user q).1 ≠ 0 ↔ 16 ≤ i % 32) := by
  have hs := (hex_generateSalt ticks rtcsec).length
  intro st'
  refine ⟨?_, ?_, ?_⟩
  · rw [shadowSetPassword_eq hu ticks rtcsec p hfile]
  · rw [shadowVerify_after_set hu ticks rtcsec p p hfile, if_pos rfl]
  · rw [shadowVerify_after_set hu ticks rtcsec p q hfile]
    have hiff := computeHash_eq_iff hs hlen hd
    split_ifs with heq
    · have := hiff.1 heq.symm
      omega
    · have := mt hiff.2 (Ne.symm heq)
      omega

/-- A password of seventeen characters, of which the last is given. -/
def seventeen (c : Byte) : List Byte := List.replicate 16 0x61 ++ [c]

theorem differAt_seventeen : DifferAt (seventeen 0x62) (seventeen 0x63) 16 := by
  refine ⟨rfl, by decide, by decide, fun i hi => ?_⟩
  unfold seventeen
  by_cases h : i < 16
  · rw [getD_append _ _ _ _ (by simpa using h), getD_append _ _ _ _ (by simpa using h)]
  · rw [getD_eq_default _ _ (by simp; omega), getD_eq_default _ _ (by simp; omega)]

/-- The check theorem at two passwords of seventeen characters that differ in
the last. -/
theorem shadowVerify_seventeen :
    (((⟨some [], fun _ => 0⟩ : Shadow).shadowSetPassword 0 0 true [0x62] (seventeen 0x62)).2.shadowVerify
      [0x62] (seventeen 0x63)).1 ≠ 0 := by
  have h := shadowVerify_iff 0 0 [0x62] (seventeen 0x62) (seventeen 0x63) 16
    ⟨some [], fun _ => 0⟩ name_b rfl (by decide) differAt_seventeen
  exact h.2.2.2 (by decide)

/-- **A wrong password is accepted**: after the password `a` is set, `b` passes
the check. -/
theorem shadowVerify_accepts_wrong :
    let st : Shadow := ⟨some [], fun _ => 0⟩
    (st.shadowSetPassword 0 0 true [0x62] [0x61]).1 = 0
      ∧ ((st.shadowSetPassword 0 0 true [0x62] [0x61]).2.shadowVerify [0x62] [0x62]).1 = 0 := by
  decide +kernel

end Shadow

end Makar
