/-
Lando/SlidingWindow.lean

A circular bitmap as a set of recent counters.

A ring of `W` slots remembers, for the `W` counters that end at a highest
one, which of them belong to a set.  Counter `x` lives in slot `x % W`, so
counters a multiple of `W` apart share a slot; the window never holds two
of them, and that is the whole argument:

    x, y ≤ h < x + W, y + W   and   x % W = y % W   ⟹   x = y.

`Tracks` is the representation relation.  Its three step lemmas are the
three things a window can do: record a counter inside the window (`fill`),
move forward by less than its width after clearing the slots it vacates
(`advance`), and jump past its own width (`jump`).  They are stated for any
width and any set, with the ring as a function from slot numbers.
-/
import Mathlib.Data.Set.Insert
import Mathlib.Order.Bounds.Basic

namespace SlidingWindow

variable {W h : ℕ} {slots : ℕ → Bool} {S : Set ℕ}

/-- Counter `x` lies in the window of width `W` that ends at `h`. -/
def InWindow (W h x : ℕ) : Prop := x ≤ h ∧ h < x + W

/-- The ring `slots` records exactly the members of `S` in the window of
width `W` that ends at `h`. -/
def Tracks (W : ℕ) (slots : ℕ → Bool) (h : ℕ) (S : Set ℕ) : Prop :=
  ∀ x, InWindow W h x → (slots (x % W) = true ↔ x ∈ S)

/-- The ring with slot `i` set to `b`. -/
def put (slots : ℕ → Bool) (i : ℕ) (b : Bool) : ℕ → Bool :=
  fun j => if j = i then b else slots j

/-- Two counters of one window that share a slot are equal. -/
theorem InWindow.eq_of_mod_eq {x y : ℕ} (hx : InWindow W h x)
    (hy : InWindow W h y) (e : x % W = y % W) : x = y := by
  obtain ⟨hx₁, hx₂⟩ := hx
  obtain ⟨hy₁, hy₂⟩ := hy
  -- both quotients are pinned, because the counters differ by less than `W`
  have dx := Nat.div_add_mod x W
  have dy := Nat.div_add_mod y W
  rcases lt_trichotomy (x / W) (y / W) with hlt | heq | hgt
  · have : W * (x / W + 1) ≤ W * (y / W) := Nat.mul_le_mul_left W hlt
    rw [Nat.mul_add] at this
    omega
  · rw [heq] at dx
    omega
  · have : W * (y / W + 1) ≤ W * (x / W) := Nat.mul_le_mul_left W hgt
    rw [Nat.mul_add] at this
    omega

/-- An empty ring that has seen only its highest counter. -/
theorem Tracks.first (W h : ℕ) :
    Tracks W (put (fun _ => false) (h % W) true) h {h} := by
  intro x hx
  have hW : 0 < W := by
    obtain ⟨h₁, h₂⟩ := hx
    omega
  have hh : InWindow W h h := ⟨le_refl h, by omega⟩
  by_cases e : x % W = h % W
  · simp [put, hx.eq_of_mod_eq hh e]
  · have hne : x ≠ h := fun hxh => e (by rw [hxh])
    simp [put, e, hne]

/-- Recording a counter inside the window. -/
theorem Tracks.fill (ht : Tracks W slots h S) {c : ℕ} (hc : InWindow W h c) :
    Tracks W (put slots (c % W) true) h (insert c S) := by
  intro x hx
  by_cases e : x % W = c % W
  · simp [put, hx.eq_of_mod_eq hc e]
  · have hne : x ≠ c := fun hxc => e (by rw [hxc])
    simp [put, e, hne, ht x hx]

/-- Moving forward by less than the width: the vacated slots are cleared,
the others keep what they held, and the new highest counter is recorded. -/
theorem Tracks.advance (ht : Tracks W slots h S) (hS : ∀ x ∈ S, x ≤ h)
    {slots' : ℕ → Bool} {c : ℕ} (hc : h < c) (hcW : c - h < W)
    (hclear : ∀ x, h < x → x ≤ c → slots' (x % W) = false)
    (hkeep : ∀ i, (∀ x, h < x → x ≤ c → i ≠ x % W) → slots' i = slots i) :
    Tracks W (put slots' (c % W) true) c (insert c S) := by
  intro x hx
  have hcc : InWindow W c c := ⟨le_refl c, by omega⟩
  by_cases e : x % W = c % W
  · simp [put, hx.eq_of_mod_eq hcc e]
  have hne : x ≠ c := fun hxc => e (by rw [hxc])
  have hput : put slots' (c % W) true (x % W) = slots' (x % W) := by
    simp [put, e]
  rw [hput, Set.mem_insert_iff, or_iff_right hne]
  rcases Nat.lt_or_ge h x with hlt | hle
  · -- a counter the move has just brought into the window
    have hxS : x ∉ S := fun hmem => absurd (hS x hmem) (by omega)
    simp [hclear x hlt hx.1, hxS]
  · -- a counter both windows hold: its slot is none of the vacated ones
    have hold : InWindow W h x := ⟨hle, by have := hx.2; omega⟩
    rw [hkeep (x % W) ?_, ht x hold]
    intro y hy₁ hy₂ hmod
    have hyw : InWindow W c y := ⟨hy₂, by omega⟩
    have := hx.eq_of_mod_eq hyw hmod
    omega

/-- Moving forward by the width or more: nothing of the old window stays. -/
theorem Tracks.jump (hS : ∀ x ∈ S, x ≤ h) {c : ℕ} (hcW : h + W ≤ c) :
    Tracks W (put (fun _ => false) (c % W) true) c (insert c S) := by
  intro x hx
  rw [Tracks.first W c x hx, Set.mem_singleton_iff, Set.mem_insert_iff]
  have hxS : x ∉ S := fun hmem => by
    have := hS x hmem
    have := hx.2
    omega
  simp [hxS]

end SlidingWindow
