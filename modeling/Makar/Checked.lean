import Mathlib

/-!
# Computations that check what they access

A program on arrays is modelled as a computation over a state that can fault: every
access is checked where it is made, and one that is out of bounds is a fault of the
computation. A loop without a bound of its own gets fuel, and to run out of it is a
fault as well. That a program is safe and ends is then one statement: it returns.

`Returns m s Q` says that the computation `m` returns from the state `s`, and that its
result and the state it leaves are related by `Q`. The rules below take such a statement
through a program: one for every construct, with an invariant for a loop over a range
(`Returns.foldlM`) and an invariant and a measure for a loop with fuel
(`Returns.repeatM`).
-/

namespace Makar

open List

namespace Checked

variable {σ ε α β γ : Type}

/-- A computation over a state that can fault. -/
abbrev Comp (σ ε α : Type) : Type := StateT σ (Except ε) α

/-- **The computation returns**, with a result and a state that are related. -/
def Returns (m : Comp σ ε α) (s : σ) (Q : α → σ → Prop) : Prop :=
  ∃ a t, m s = .ok (a, t) ∧ Q a t

/-- A fault unless the condition holds. -/
def check (fault : ε) (p : Prop) [Decidable p] : Comp σ ε Unit :=
  if p then pure () else throw fault

/-- **A loop with fuel**: the body says whether the loop goes on. -/
def repeatM (out : ε) (body : β → Comp σ ε (β ⊕ γ)) : ℕ → β → Comp σ ε γ
  | 0, _ => throw out
  | n + 1, b => do
    match ← body b with
    | .inl b => repeatM out body n b
    | .inr c => pure c

/-- A part that returns, and what follows it. -/
theorem bind_run {m : Comp σ ε α} {f : α → Comp σ ε β} {s t : σ} {a : α}
    (h : m s = .ok (a, t)) : (m >>= f) s = f a t := by
  simp only [Bind.bind, StateT.bind, h, Except.bind]

namespace Returns

variable {m : Comp σ ε α} {f : α → Comp σ ε β} {s : σ} {Q Q' : α → σ → Prop}
  {R : β → σ → Prop} {fault : ε}

theorem mono (h : Returns m s Q) (hQ : ∀ a t, Q a t → Q' a t) : Returns m s Q' := by
  obtain ⟨a, t, hm, hq⟩ := h
  exact ⟨a, t, hm, hQ a t hq⟩

theorem pure {a : α} (h : Q a s) : Returns (Pure.pure a : Comp σ ε α) s Q := ⟨a, s, rfl, h⟩

theorem bind (hm : Returns m s Q) (hf : ∀ a t, Q a t → Returns (f a) t R) :
    Returns (m >>= f) s R := by
  obtain ⟨a, t, hma, hq⟩ := hm
  obtain ⟨b, u, hfb, hr⟩ := hf a t hq
  refine ⟨b, u, ?_, hr⟩
  rw [bind_run hma, hfb]

/-- A branch, whichever way it goes. -/
theorem ite {p : Prop} [Decidable p] {m' : Comp σ ε α} (ht : p → Returns m s Q)
    (hf : ¬ p → Returns m' s Q) : Returns (if p then m else m') s Q := by
  split_ifs with h
  · exact ht h
  · exact hf h

/-- The state is read. -/
theorem get {g : σ → Comp σ ε β} (h : Returns (g s) s R) :
    Returns ((MonadState.get : Comp σ ε σ) >>= g) s R :=
  bind ⟨s, s, rfl, rfl, rfl⟩ (fun a t (hat : a = s ∧ t = s) => by rw [hat.1, hat.2]; exact h)

/-- The state is written. -/
theorem set {t : σ} {g : PUnit → Comp σ ε β} (h : Returns (g ⟨⟩) t R) :
    Returns ((MonadStateOf.set t : Comp σ ε PUnit) >>= g) s R :=
  bind ⟨⟨⟩, t, rfl, rfl⟩ (fun _ u (hu : u = t) => by rw [hu]; exact h)

/-- The access is inside. -/
theorem check {p : Prop} [Decidable p] {g : Unit → Comp σ ε β} (hp : p)
    (h : Returns (g ()) s R) : Returns (Checked.check fault p >>= g) s R := by
  refine bind (Q := fun _ t => t = s) ?_ (fun _ t ht => by rw [ht]; exact h)
  unfold Checked.check
  rw [if_pos hp]
  exact pure rfl

/-- The rule for a loop over a range, with an invariant that knows how far it is. -/
theorem foldlM_range {body : β → ℕ → Comp σ ε β} {I : ℕ → β → σ → Prop} (n : ℕ)
    (hbody : ∀ i b t, i < n → I i b t → Returns (body b i) t (I (i + 1))) {b : β} (hI : I 0 b s) :
    Returns ((List.range n).foldlM body b) s (I n) := by
  induction n with
  | zero =>
    rw [range_zero, foldlM_nil]
    exact pure hI
  | succ n ih =>
    rw [range_succ, foldlM_append]
    refine bind (ih (fun i b t hi => hbody i b t (Nat.lt_succ_of_lt hi))) (fun b' t ht => ?_)
    rw [foldlM_cons]
    refine bind (hbody n b' t (Nat.lt_succ_self n) ht) (fun b'' u hu => ?_)
    rw [foldlM_nil]
    exact pure hu

variable {body : β → Comp σ ε (β ⊕ γ)}

variable {R : γ → σ → Prop}

/-- **A turn of a loop with fuel**, and the rest of the loop. -/
theorem repeatM_turn {out : ε} {n : ℕ} {b : β}
    (h : Returns (body b) s fun r t => match r with
      | .inl b' => Returns (Checked.repeatM out body n b') t R
      | .inr c => R c t) : Returns (Checked.repeatM out body (n + 1) b) s R := by
  refine bind h (fun r t ht => ?_)
  cases r with
  | inl b' => exact ht
  | inr c => exact pure ht

/-- **The rule for a loop with fuel**: every turn ends the loop, or keeps the invariant
and makes the measure smaller. -/
theorem repeatM {out : ε} {I : β → σ → Prop} {v : β → σ → ℕ}
    (hbody : ∀ b t, I b t → Returns (body b) t fun r u => match r with
      | .inl b' => I b' u ∧ v b' u < v b t
      | .inr c => R c u) {fuel : ℕ} {b : β} (hI : I b s) (hfuel : v b s < fuel) :
    Returns (Checked.repeatM out body fuel b) s R := by
  induction fuel generalizing b s with
  | zero => exact absurd hfuel (Nat.not_lt_zero _)
  | succ n ih =>
    refine repeatM_turn ((hbody b s hI).mono (fun r t ht => ?_))
    cases r with
    | inl b' => exact ih ht.1 (Nat.lt_of_lt_of_le ht.2 (Nat.lt_succ_iff.1 hfuel))
    | inr c => exact ht

/-- What follows a part that returns faults. -/
theorem bind_error {e : ε} (hm : Returns m s Q) (hf : ∀ a t, Q a t → f a t = .error e) :
    (m >>= f) s = .error e := by
  obtain ⟨a, t, hma, hq⟩ := hm
  rw [bind_run hma, hf a t hq]

end Returns

variable {body : β → Comp σ ε (β ⊕ γ)}

/-- The loop goes on after a turn that says so. -/
theorem repeatM_inl {out : ε} {b b' : β} {s t : σ} (n : ℕ) (h : body b s = .ok (.inl b', t)) :
    repeatM out body (n + 1) b s = repeatM out body n b' t := by
  rw [repeatM, bind_run h]

/-- The loop faults when a turn does. -/
theorem repeatM_error {out e : ε} {b : β} {s : σ} (n : ℕ) (h : body b s = .error e) :
    repeatM out body (n + 1) b s = .error e := by
  rw [repeatM]
  simp only [Bind.bind, StateT.bind, h, Except.bind]

end Checked

end Makar
