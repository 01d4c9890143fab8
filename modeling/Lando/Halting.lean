/-
Lando/Halting.lean

Runs that may stop before their input is used up.

A step answers one input with a new state and, perhaps, the reason to stop
there.  `run` takes the inputs one after the other until some step stops.  Two
ways of running are the same: one run over everything, and a run whose inputs
are batches, each of them a run of its own (`run_run`).  What every step keeps
holds wherever the run stops (`run_invariant`).
-/
import Mathlib.Data.List.Basic

namespace Halting

variable {σ α φ : Type*}

/-- State and input give the next state and, perhaps, the reason to stop. -/
abbrev Step (σ α φ : Type*) := σ → α → σ × Option φ

/-- What comes after `r`, unless it stopped. -/
def andThen (r : σ × Option φ) (next : σ → σ × Option φ) : σ × Option φ :=
  match r with
  | (s, none) => next s
  | (s, some why) => (s, some why)

@[simp] theorem andThen_none (s : σ) (next : σ → σ × Option φ) :
    andThen (s, none) next = next s := rfl

@[simp] theorem andThen_some (s : σ) (why : φ) (next : σ → σ × Option φ) :
    andThen (s, some why) next = (s, some why) := rfl

theorem andThen_assoc (r : σ × Option φ) (f g : σ → σ × Option φ) :
    andThen (andThen r f) g = andThen r fun s => andThen (f s) g := by
  rcases r with ⟨s, - | why⟩
  · rfl
  · rfl

/-- Takes the inputs one after the other, until a step stops. -/
def run (step : Step σ α φ) (s : σ) : List α → σ × Option φ
  | [] => (s, none)
  | a :: as => andThen (step s a) fun s' => run step s' as

variable {step : Step σ α φ} {s : σ}

@[simp] theorem run_nil : run step s [] = (s, none) := rfl

@[simp] theorem run_cons (a : α) (as : List α) :
    run step s (a :: as) = andThen (step s a) fun s' => run step s' as := rfl

theorem run_append (xs ys : List α) :
    run step s (xs ++ ys) = andThen (run step s xs) fun s' => run step s' ys := by
  induction xs generalizing s with
  | nil => rfl
  | cons x xs ih =>
    rw [List.cons_append, run_cons, run_cons, andThen_assoc]
    apply congrArg
    funext s'
    exact ih

/-- **Batches do not matter.** -/
theorem run_run (xss : List (List α)) : run (run step) s xss = run step s xss.flatten := by
  induction xss generalizing s with
  | nil => rfl
  | cons xs xss ih =>
    rw [run_cons, List.flatten_cons, run_append]
    apply congrArg
    funext s'
    exact ih

/-- **The invariant rule**: it holds wherever the run stops. -/
theorem run_invariant {I : σ → Prop} {xs : List α} (h : I s)
    (hstep : ∀ s, ∀ x ∈ xs, I s → I (step s x).1) : I (run step s xs).1 := by
  induction xs generalizing s with
  | nil => exact h
  | cons x xs ih =>
    have hx := hstep s x List.mem_cons_self h
    rw [run_cons]
    rcases e : step s x with ⟨s', - | why⟩
    · rw [e] at hx
      exact ih hx fun s y hy => hstep s y (List.mem_cons_of_mem x hy)
    · rw [e] at hx
      exact hx

end Halting
