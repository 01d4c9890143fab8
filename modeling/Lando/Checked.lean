/-
Lando/Checked.lean

Operations on a buffer that may be out of range.

An index, a slice or a copy that does not lie inside its buffer panics.  Here
each such operation is a partial function, and `none` is the panic.  A loop that
is written with them has a result

    loop buf = some buf'

just if it does not panic, and then what it does is a sequence of `blit`s.
-/
import Lando.Bytes

namespace Checked

open Bytes

variable {α : Type} {buf : List α}

/-- `buf[i]`. -/
def load (buf : List α) (i : ℕ) : Option α := buf[i]?

/-- `buf[i] = a`. -/
def store (buf : List α) (i : ℕ) (a : α) : Option (List α) :=
  if i < buf.length then some (buf.set i a) else none

/-- `&buf[lo..hi]`. -/
def sub (buf : List α) (lo hi : ℕ) : Option (List α) :=
  if lo ≤ hi ∧ hi ≤ buf.length then some (slice buf lo hi) else none

/-- `buf[lo..hi].copy_from_slice(src)`. -/
def copyFrom (buf : List α) (lo hi : ℕ) (src : List α) : Option (List α) :=
  if lo ≤ hi ∧ hi ≤ buf.length ∧ src.length = hi - lo then some (blit buf lo src) else none

/-- `buf.copy_within(lo..hi, dest)`: all is read before anything is written. -/
def copyWithin (buf : List α) (lo hi dest : ℕ) : Option (List α) :=
  if lo ≤ hi ∧ hi ≤ buf.length ∧ dest + (hi - lo) ≤ buf.length then
    some (blit buf dest (slice buf lo hi))
  else none

/-- `m - n` in a `usize`. -/
def minus (m n : ℕ) : Option ℕ := if n ≤ m then some (m - n) else none

theorem load_eq {i : ℕ} (h : i < buf.length) (d : α) : load buf i = some (buf.getD i d) := by
  rw [load, List.getD_eq_getElem?_getD, List.getElem?_eq_getElem h]
  rfl

theorem store_eq {i : ℕ} (h : i < buf.length) (a : α) : store buf i a = some (blit buf i [a]) := by
  rw [store, if_pos h, set_eq_blit h]

/-- A store right behind a write is part of it. -/
theorem store_behind {x : List α} {off i : ℕ} (hi : i = off + x.length) (h : i < buf.length)
    (a : α) : store (blit buf off x) i a = some (blit buf off (x ++ [a])) := by
  subst hi
  rw [store_eq (by rw [length_blit (by omega)]; exact h), blit_blit_behind (by omega)]

theorem sub_eq {lo hi : ℕ} (h : lo ≤ hi) (h' : hi ≤ buf.length) :
    sub buf lo hi = some (slice buf lo hi) := if_pos ⟨h, h'⟩

theorem copyFrom_eq {lo hi : ℕ} {src : List α} (hsrc : hi = lo + src.length)
    (h : hi ≤ buf.length) : copyFrom buf lo hi src = some (blit buf lo src) :=
  if_pos ⟨by omega, h, by omega⟩

/-- A copy to the front always fits. -/
theorem copyWithin_front {lo hi : ℕ} (h : lo ≤ hi) (h' : hi ≤ buf.length) :
    copyWithin buf lo hi 0 = some (blit buf 0 (slice buf lo hi)) :=
  if_pos ⟨h, h', by omega⟩

theorem minus_eq {m n : ℕ} (h : n ≤ m) : minus m n = some (m - n) := if_pos h

end Checked
