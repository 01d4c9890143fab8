/-
Lando/Fifo.lean

A queue of bytes between two ends, as whoever moves them sees it.

`Step held entered left held'` says that the queue held `held`, that `entered`
was put in behind and `left` taken out in front, and that `held'` is there now:

    held ++ entered = left ++ held'.

That one equation is closed under composition, so what holds of each step of a
program holds of its runs, and a queue that was empty in the beginning has let
out a prefix of what went in, all of it once it is empty again.
-/
import Mathlib.Data.List.Basic

namespace Fifo

variable {β : Type*}

/-- The bytes `entered` went in and the bytes `left` came out. -/
def Step (held entered left held' : List β) : Prop := held ++ entered = left ++ held'

variable {held held' held'' entered entered' left left' : List β}

theorem Step.idle (held : List β) : Step held [] [] held := List.append_nil held

theorem Step.enter (held entered : List β) : Step held entered [] (held ++ entered) := rfl

theorem Step.leave (held : List β) (k : ℕ) : Step held [] (held.take k) (held.drop k) := by
  rw [Step, List.append_nil, List.take_append_drop]

/-- Whatever stands in front may leave, also of what has just entered. -/
theorem Step.leave_front (h : left <+: held ++ entered) :
    Step held entered left ((held ++ entered).drop left.length) := by
  obtain ⟨rest, hrest⟩ := h
  rw [Step, ← hrest, List.drop_left]

theorem Step.trans (h : Step held entered left held') (h' : Step held' entered' left' held'') :
    Step held (entered ++ entered') (left ++ left') held'' := by
  calc held ++ (entered ++ entered') = left ++ (held' ++ entered') := by
        rw [← List.append_assoc, h, List.append_assoc]
    _ = left ++ left' ++ held'' := by rw [h', List.append_assoc]

/-- What has left is what entered first. -/
theorem Step.isPrefix (h : Step [] entered left held) : left <+: entered := ⟨held, h.symm⟩

/-- Everything has left exactly when nothing is held. -/
theorem Step.eq_iff (h : Step [] entered left held) : left = entered ↔ held = [] := by
  rw [Step, List.nil_append] at h
  rw [h, List.self_eq_append_right]

end Fifo
