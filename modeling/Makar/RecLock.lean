import Mathlib.Tactic

/-!
# Recursive locks

A lock with an owner and a depth: whoever has it may take it again, and it is free
when it has been given back as often as it was taken. `RecLock.Counts` ties the
lock to how often each party has taken it, and every `lock` and `unlock` keeps the
tie. What the lock is for follows: two parties that have both taken it are one
(`RecLock.Counts.exclusive`).
-/

namespace Makar

open Function Option

/-- A recursive lock. Parties are numbers. -/
structure RecLock where
  /-- Who has it. -/
  owner : Option ℕ
  /-- How often it was taken. -/
  depth : ℕ
  deriving DecidableEq

namespace RecLock

/-- Nobody has it. -/
def free : RecLock := ⟨none, 0⟩

/-- The lock is taken by `me`, unless somebody else has it. -/
def lock (me : ℕ) (l : RecLock) : Option RecLock :=
  if l.owner = none ∨ l.owner = some me then some ⟨some me, l.depth + 1⟩ else none

/-- The lock is given back. -/
def unlock (l : RecLock) : RecLock :=
  if 0 < l.depth then if l.depth - 1 = 0 then ⟨none, 0⟩ else ⟨l.owner, l.depth - 1⟩ else l

/-- **The lock counts**: `n q` is how often `q` has taken it and not given it back. -/
structure Counts (l : RecLock) (n : ℕ → ℕ) : Prop where
  /-- Who has taken it is the owner. -/
  owner : ∀ q, n q ≠ 0 → l.owner = some q
  /-- The depth is the owner's. -/
  depth : ∀ q, l.owner = some q → n q = l.depth
  /-- A lock with an owner was taken. -/
  pos : ∀ q, l.owner = some q → 0 < l.depth
  /-- A lock without one was not. -/
  zero : l.owner = none → l.depth = 0

variable {l l' : RecLock} {n : ℕ → ℕ} {me p q : ℕ}

theorem counts_free : free.Counts fun _ => 0 :=
  ⟨fun _ h => absurd rfl h, fun _ h => (nomatch h), fun _ h => (nomatch h), fun _ => rfl⟩

/-- **No two parties have the lock.** -/
theorem Counts.exclusive (h : l.Counts n) (hp : n p ≠ 0) (hq : n q ≠ 0) : p = q :=
  some.inj ((h.owner p hp).symm.trans (h.owner q hq))

/-- Who gets the lock is the only one to have it. -/
theorem Counts.only (h : l.Counts n) (hl : l.lock me = some l') (hq : n q ≠ 0) : q = me := by
  unfold lock at hl
  split_ifs at hl with hown
  rw [h.owner q hq] at hown
  exact hown.elim (fun hnone => nomatch hnone) some.inj

theorem lock_owner (hl : l.lock me = some l') : l'.owner = some me := by
  unfold lock at hl
  split_ifs at hl
  rw [← some.inj hl]

theorem unlock_owner (h : l.unlock.owner = some q) : l.owner = some q := by
  unfold unlock at h
  split_ifs at h
  · exact h
  · exact h

theorem Counts.lock (h : l.Counts n) (hl : l.lock me = some l') :
    l'.Counts (Function.update n me (n me + 1)) := by
  have hme : n me = l.depth := by
    unfold RecLock.lock at hl
    split_ifs at hl with hown
    rcases hown with hnone | hsome
    · rw [h.zero hnone]
      by_contra hne
      rw [h.owner me hne] at hnone
      cases hnone
    · exact h.depth me hsome
  have hl' : l' = ⟨some me, l.depth + 1⟩ := by
    unfold RecLock.lock at hl
    split_ifs at hl
    exact (some.inj hl).symm
  subst hl'
  refine ⟨fun q hq => ?_, fun q hq => ?_, fun _ _ => Nat.succ_pos _, fun hnone => nomatch hnone⟩
  · by_cases hqm : q = me
    · rw [hqm]
    · rw [update_of_ne hqm] at hq
      exact absurd (h.only hl hq) hqm
  · cases hq
    rw [update_self, hme]

theorem Counts.unlock (h : l.Counts n) (hme : n me ≠ 0) :
    l.unlock.Counts (Function.update n me (n me - 1)) := by
  have hown := h.owner me hme
  have hdepth := h.depth me hown
  have hpos := h.pos me hown
  have hothers : ∀ q ≠ me, n q = 0 := fun q hq => by
    by_contra hne
    exact hq (h.exclusive hne hme)
  unfold RecLock.unlock
  rw [if_pos hpos]
  split_ifs with hlast
  · refine ⟨fun q hq => absurd ?_ hq, fun q hq => (nomatch hq), fun q hq => (nomatch hq),
      fun _ => rfl⟩
    by_cases hqm : q = me
    · rw [hqm, update_self, hdepth, hlast]
    · rw [update_of_ne hqm, hothers q hqm]
  · refine ⟨fun q hq => ?_, fun q hq => ?_, fun q _ => Nat.pos_of_ne_zero hlast, fun hnone => ?_⟩
    · by_cases hqm : q = me
      · rw [hqm]
        exact hown
      · rw [update_of_ne hqm, hothers q hqm] at hq
        exact absurd rfl hq
    · obtain rfl : me = q := some.inj (hown.symm.trans hq)
      rw [update_self, hdepth]
    · rw [hown] at hnone
      cases hnone

end RecLock

end Makar
