import Mathlib.Tactic

/-!
# Runs of a state machine

A component is a state and a step function; a run is a list of inputs, and
the state it reaches is the fold of the step function over it. Two rules
are all the development asks of a run.

The first is the invariant rule: what holds before and is kept by every
step holds after. The second is the same rule when a step keeps the
invariant only under a condition, on its input and on the state it is taken
in. `Meets` says that every step of a run meets that condition where it is
taken, so the condition can read the state and the rule still speaks of
whole runs.

A loop that may break off is a run that ends early: `loop` asks its body
whether to go on, and `LoopMeets` is `Meets` for the turns that are taken.
-/

namespace Makar

open List

variable {σ ι : Type*}

/-- **Every step of the run meets the condition**, read in the state the
step is taken in. -/
def Meets (ok : σ → ι → Prop) (step : σ → ι → σ) : σ → List ι → Prop
  | _, [] => True
  | s, i :: is => ok s i ∧ Meets ok step (step s i) is

instance Meets.decidable (ok : σ → ι → Prop) [∀ s i, Decidable (ok s i)]
    (step : σ → ι → σ) : ∀ (s : σ) (is : List ι), Decidable (Meets ok step s is)
  | _, [] => .isTrue trivial
  | s, i :: is =>
    have := Meets.decidable ok step (step s i) is
    inferInstanceAs (Decidable (_ ∧ _))

section

variable (ok : σ → ι → Prop) (step : σ → ι → σ) (s : σ)

@[simp] theorem meets_nil : Meets ok step s [] := trivial

@[simp] theorem meets_cons (i : ι) (is : List ι) :
    Meets ok step s (i :: is) ↔ ok s i ∧ Meets ok step (step s i) is := Iff.rfl

end

variable {ok ok' : σ → ι → Prop} {step : σ → ι → σ}

/-- A run followed by another meets the condition when each part does, the
second from the state the first reaches. -/
theorem meets_append {s : σ} {l l' : List ι} :
    Meets ok step s (l ++ l') ↔ Meets ok step s l ∧ Meets ok step (l.foldl step s) l' := by
  induction l generalizing s with
  | nil => simp
  | cons i l ih =>
    rw [cons_append, meets_cons, meets_cons, ih, foldl_cons, and_assoc]

/-- A weaker condition is met wherever a stronger one is. -/
theorem Meets.mono (h : ∀ s i, ok s i → ok' s i) :
    ∀ {s : σ} {is : List ι}, Meets ok step s is → Meets ok' step s is
  | _, [], _ => trivial
  | s, i :: _, ⟨hi, his⟩ => ⟨h s i hi, Meets.mono h his⟩

/-- A condition that an input meets in any state. -/
theorem meets_of_forall :
    ∀ {is : List ι} {s : σ}, (∀ i ∈ is, ∀ s, ok s i) → Meets ok step s is
  | [], _, _ => trivial
  | i :: _, s, h => ⟨h i (mem_cons_self ..) s,
      meets_of_forall fun j hj => h j (mem_cons_of_mem i hj)⟩

/-- Two conditions are met together when each is met. -/
theorem Meets.and :
    ∀ {s : σ} {is : List ι}, Meets ok step s is → Meets ok' step s is →
      Meets (fun s i => ok s i ∧ ok' s i) step s is
  | _, [], _, _ => trivial
  | _, _ :: _, ⟨hi, his⟩, ⟨hi', his'⟩ => ⟨⟨hi, hi'⟩, his.and his'⟩

variable {P : σ → Prop} {s : σ}

/-- **The invariant rule under a condition**: a property every step keeps
where it meets the condition holds after every run that does. -/
theorem Meets.invariant (hstep : ∀ s i, P s → ok s i → P (step s i)) {is : List ι} (hs : P s)
    (hok : Meets ok step s is) : P (is.foldl step s) := by
  induction is generalizing s with
  | nil => exact hs
  | cons i is ih => exact ih (hstep s i hs hok.1) hok.2

/-- **The invariant rule**: a property every step keeps holds after every
run. -/
theorem foldl_invariant {f : σ → ι → σ} (hstep : ∀ s i, P s → P (f s i)) (is : List ι) (hs : P s) :
    P (is.foldl f s) := by
  induction is generalizing s with
  | nil => exact hs
  | cons i is ih => exact ih (hstep s i hs)

/-- The invariant rule for a fold whose inputs are drawn from a list the
step may read: each step may use that its input is one of them. -/
theorem foldl_invariant_mem (is : List ι) (hstep : ∀ s, ∀ i ∈ is, P s → P (step s i)) (hs : P s) :
    P (is.foldl step s) := by
  induction is generalizing s with
  | nil => exact hs
  | cons i is ih =>
    exact ih (fun t j hj => hstep t j (mem_cons_of_mem i hj))
      (hstep s i mem_cons_self hs)

/-! ## Loops that break off -/

/-- Run the body over the list, until it says to stop. True when the loop came
to its end. -/
def loop (body : σ → ι → Bool × σ) : List ι → σ → Bool × σ
  | [], s => (true, s)
  | i :: is, s =>
    match body s i with
    | (true, s) => loop body is s
    | (false, s) => (false, s)

/-- **Every turn the loop takes meets the condition**, read in the state the
turn starts from. -/
def LoopMeets (ok : σ → ι → Prop) (body : σ → ι → Bool × σ) : σ → List ι → Prop
  | _, [] => True
  | s, i :: is => ok s i ∧ ((body s i).1 = true → LoopMeets ok body (body s i).2 is)

theorem loop_cons (body : σ → ι → Bool × σ) (i : ι) (is : List ι) (s : σ) :
    loop body (i :: is) s
      = if (body s i).1 = true then loop body is (body s i).2 else (false, (body s i).2) := by
  rw [loop]
  rcases body s i with ⟨b, t⟩
  cases b <;> rfl

variable {body : σ → ι → Bool × σ}

/-- **The invariant rule for a loop**: a property every turn keeps where it
meets the condition holds after the loop. -/
theorem LoopMeets.invariant (is : List ι) (hstep : ∀ s, ∀ i ∈ is, P s → ok s i → P (body s i).2)
    (hs : P s) (hok : LoopMeets ok body s is) : P (loop body is s).2 := by
  induction is generalizing s with
  | nil => exact hs
  | cons i is ih =>
    have hone := hstep s i mem_cons_self hs hok.1
    have hrest : ∀ t, ∀ j ∈ is, P t → ok t j → P (body t j).2 :=
      fun t j hj => hstep t j (mem_cons_of_mem i hj)
    rw [loop_cons]
    split_ifs with hgo
    · exact ih hrest hone (hok.2 hgo)
    · exact hone

/-- The invariant rule for a loop without a condition. -/
theorem loop_invariant (is : List ι) (hstep : ∀ s, ∀ i ∈ is, P s → P (body s i).2) (hs : P s) :
    P (loop body is s).2 := by
  induction is generalizing s with
  | nil => exact hs
  | cons i is ih =>
    have hone := hstep s i mem_cons_self hs
    have hrest : ∀ t, ∀ j ∈ is, P t → P (body t j).2 :=
      fun t j hj => hstep t j (mem_cons_of_mem i hj)
    rw [loop_cons]
    split_ifs
    · exact ih hrest hone
    · exact hone

end Makar
