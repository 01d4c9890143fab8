/-
Lando/Machine.lean

Machines whose inputs come with the time they arrive at.

A machine answers every input with an output and a new state.  In a run the
times never decrease (`Ordered`).  Two rules carry the arguments about runs:
an invariant that outlasts the passing of time and every step holds at the end
(`run_invariant`), and a simulation makes the visible outputs of two machines
equal (`trace_eq`).  In the second, an input may be hidden: the machine takes
it, the one it is compared with does not see it.
-/
import Mathlib.Data.List.Basic

namespace Timed

variable {σ τ ι ο : Type*}

/-- A machine: state, time and input give the next state and an output. -/
abbrev Machine (σ ι ο : Type*) := σ → ℕ → ι → σ × ο

/-- The times of a run never decrease, and none is before `now`. -/
def Ordered : ℕ → List (ℕ × ι) → Prop
  | _, [] => True
  | now, (t, _) :: rest => now ≤ t ∧ Ordered t rest

/-- The time of the last input of a run that starts at `now`. -/
def finish : ℕ → List (ℕ × ι) → ℕ
  | now, [] => now
  | _, (t, _) :: rest => finish t rest

/-- The state after a run. -/
def run (M : Machine σ ι ο) : σ → List (ℕ × ι) → σ
  | s, [] => s
  | s, (t, i) :: rest => run M (M s t i).1 rest

/-- The outputs of the visible inputs of a run. -/
def trace (M : Machine σ ι ο) (visible : ι → Bool) : σ → List (ℕ × ι) → List ο
  | _, [] => []
  | s, (t, i) :: rest =>
      if visible i then (M s t i).2 :: trace M visible (M s t i).1 rest
      else trace M visible (M s t i).1 rest

variable {M : Machine σ ι ο} {N : Machine τ ι ο} {now : ℕ} {s : σ} {a : τ}

theorem run_append (M : Machine σ ι ο) (s : σ) (xs ys : List (ℕ × ι)) :
    run M s (xs ++ ys) = run M (run M s xs) ys := by
  induction xs generalizing s with
  | nil => rfl
  | cons x xs ih => exact ih (M s x.1 x.2).1

/-- **The invariant rule.**  What the passing of time and every step keep holds
at the end of a run. -/
theorem run_invariant {I : ℕ → σ → Prop}
    (later : ∀ {now now' s}, now ≤ now' → I now s → I now' s)
    (step : ∀ {now s} i, I now s → I now (M s now i).1)
    {xs : List (ℕ × ι)} (ho : Ordered now xs) (h : I now s) :
    I (finish now xs) (run M s xs) := by
  induction xs generalizing now s with
  | nil => exact h
  | cons x xs ih => exact ih ho.2 (step x.2 (later ho.1 h))

/-- A property of every step of a run, told by the state before it. -/
def Along (M : Machine σ ι ο) (Φ : σ → ℕ → ι → Prop) : σ → List (ℕ × ι) → Prop
  | _, [] => True
  | s, (t, i) :: rest => Φ s t i ∧ Along M Φ (M s t i).1 rest

/-- Two properties of single steps that an invariant makes equivalent are
equivalent along runs. -/
theorem along_congr {I : σ → Prop} {Φ Ψ : σ → ℕ → ι → Prop} {xs : List (ℕ × ι)}
    (step : ∀ {s} t i, I s → I (M s t i).1)
    (h : ∀ x ∈ xs, ∀ s, I s → (Φ s x.1 x.2 ↔ Ψ s x.1 x.2)) (hs : I s) :
    Along M Φ s xs ↔ Along M Ψ s xs := by
  induction xs generalizing s with
  | nil => exact Iff.rfl
  | cons x xs ih =>
    refine and_congr (h x List.mem_cons_self s hs) (ih ?_ (step x.1 x.2 hs))
    exact fun y hy => h y (List.mem_cons_of_mem x hy)

/-- What an invariant gives of every step holds along every run. -/
theorem along_of_invariant {I : σ → Prop} {Φ : σ → ℕ → ι → Prop}
    (step : ∀ {s} t i, I s → I (M s t i).1) (h : ∀ s t i, I s → Φ s t i) (hs : I s)
    (xs : List (ℕ × ι)) : Along M Φ s xs := by
  induction xs generalizing s with
  | nil => trivial
  | cons x xs ih => exact ⟨h s x.1 x.2 hs, ih (step x.1 x.2 hs)⟩

/-- A simulation: related states stay related as time passes, answer a visible
input alike and stay related, and a hidden input does not undo the relation. -/
structure Simulates (M : Machine σ ι ο) (N : Machine τ ι ο) (visible : ι → Bool)
    (R : ℕ → σ → τ → Prop) : Prop where
  later : ∀ {now now' s a}, now ≤ now' → R now s a → R now' s a
  step : ∀ {now s a i}, visible i = true → R now s a →
    (M s now i).2 = (N a now i).2 ∧ R now (M s now i).1 (N a now i).1
  hidden : ∀ {now s a i}, visible i = false → R now s a → R now (M s now i).1 a

variable {visible : ι → Bool} {R : ℕ → σ → τ → Prop}

/-- The inputs that can be seen. -/
def seen (visible : ι → Bool) (xs : List (ℕ × ι)) : List (ℕ × ι) := xs.filter fun x => visible x.2

theorem seen_cons_visible {x : ℕ × ι} (h : visible x.2 = true) (xs : List (ℕ × ι)) :
    seen visible (x :: xs) = x :: seen visible xs :=
  List.filter_cons_of_pos h

theorem seen_cons_hidden {x : ℕ × ι} (h : visible x.2 = false) (xs : List (ℕ × ι)) :
    seen visible (x :: xs) = seen visible xs :=
  List.filter_cons_of_neg (by rw [h]; exact Bool.false_ne_true)

/-- **The simulation rule, for states.** -/
theorem Simulates.run_rel (h : Simulates M N visible R) {xs : List (ℕ × ι)}
    (ho : Ordered now xs) (hr : R now s a) :
    R (finish now xs) (run M s xs) (run N a (seen visible xs)) := by
  induction xs generalizing now s a with
  | nil => exact hr
  | cons x xs ih =>
    have hlater := h.later ho.1 hr
    rcases hv : visible x.2 with - | -
    · rw [seen_cons_hidden hv]
      exact ih ho.2 (h.hidden hv hlater)
    · rw [seen_cons_visible hv]
      exact ih ho.2 (h.step hv hlater).2

/-- **The simulation rule, for outputs.**  The visible outputs of a run are
those of the other machine on the inputs that can be seen. -/
theorem Simulates.trace_eq (h : Simulates M N visible R) {xs : List (ℕ × ι)}
    (ho : Ordered now xs) (hr : R now s a) :
    trace M visible s xs = trace N visible a (seen visible xs) := by
  induction xs generalizing now s a with
  | nil => rfl
  | cons x xs ih =>
    have hlater := h.later ho.1 hr
    rcases hv : visible x.2 with - | -
    · rw [seen_cons_hidden hv, trace, if_neg (by rw [hv]; exact Bool.false_ne_true)]
      exact ih ho.2 (h.hidden hv hlater)
    · obtain ⟨hout, hrel⟩ := h.step hv hlater
      rw [seen_cons_visible hv, trace, if_pos hv, trace, if_pos hv, hout, ih ho.2 hrel]

end Timed
