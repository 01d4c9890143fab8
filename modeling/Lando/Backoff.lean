/-
Lando/Backoff.lean

Delays that double up to a limit.

A loop that retries waits `d` and goes on with `min (d * 2) limit`.  The delay
before retry `k` has a closed form,

    delay limit first k  =  min (first * 2 ^ k) limit.
-/
import Mathlib.Data.List.Range
import Mathlib.Tactic.Ring

namespace Backoff

/-- The delay after this one. -/
def next (limit d : ℕ) : ℕ := min (d * 2) limit

/-- The delay of retry `k`. -/
def delay (limit first k : ℕ) : ℕ := min (first * 2 ^ k) limit

/-- The delays of `n` retries. -/
def retries (limit : ℕ) : ℕ → ℕ → List ℕ
  | _, 0 => []
  | d, n + 1 => d :: retries limit (next limit d) n

/-- One retry more. -/
theorem next_delay (limit first k : ℕ) :
    next limit (delay limit first k) = delay limit first (k + 1) := by
  have hpow : first * 2 ^ (k + 1) = first * 2 ^ k * 2 := by ring
  rw [next, delay, delay, hpow]
  omega

theorem retries_delay (limit first k n : ℕ) :
    retries limit (delay limit first k) n = (List.range' k n).map (delay limit first) := by
  induction n generalizing k with
  | zero => rfl
  | succ n ih =>
    rw [retries, next_delay, ih, List.range'_succ]
    rfl

/-- Retry after retry, from the first delay on. -/
theorem retries_eq {limit first : ℕ} (h : first ≤ limit) (n : ℕ) :
    retries limit first n = (List.range n).map (delay limit first) := by
  have hfirst : delay limit first 0 = first := by
    rw [delay, Nat.pow_zero, Nat.mul_one, Nat.min_eq_left h]
  have hretries := retries_delay limit first 0 n
  rwa [hfirst, ← List.range_eq_range'] at hretries

end Backoff
