/-
Lando/Leases.lean

Things that are lent to holders and marked while they are.

Each holder has at most one thing, and a mark tells that a thing is out.  Taking
an unmarked thing and giving one back keep the books: no thing has two holders,
and what is marked is held or lost (`Sound`).  A thing is lost when the holders
go away and the marks stay (`forget`); it is marked from then on, and nobody
holds it again.  Hence the marks count the holders and the losses
(`Sound.card_marked`).
-/
import Mathlib.Data.Fintype.Card
import Mathlib.Data.Fintype.Prod

namespace Leases

/-- The marks, and what each holder has. -/
structure Book (ι κ : Type*) where
  marked : ι → Bool
  holds : κ → Option ι

variable {ι κ : Type*}

namespace Book

/-- Somebody holds item `i`. -/
def Held (b : Book ι κ) (i : ι) : Prop := ∃ k, b.holds k = some i

/-- All holders are gone. -/
def forget (b : Book ι κ) : Book ι κ := ⟨b.marked, fun _ => none⟩

variable [DecidableEq ι]

section

variable [DecidableEq κ]

/-- `k` takes `i`. -/
def take (b : Book ι κ) (k : κ) (i : ι) : Book ι κ :=
  ⟨Function.update b.marked i true, Function.update b.holds k (some i)⟩

/-- `k` gives `i` back. -/
def giveBack (b : Book ι κ) (k : κ) (i : ι) : Book ι κ :=
  ⟨Function.update b.marked i false, Function.update b.holds k none⟩

end

variable [Fintype ι] [Fintype κ]

instance (b : Book ι κ) (i : ι) : Decidable (b.Held i) := inferInstanceAs (Decidable (∃ _, _))

/-- Everything that is held. -/
def held (b : Book ι κ) : Finset ι := Finset.univ.filter b.Held

@[simp] theorem mem_held {b : Book ι κ} {i : ι} : i ∈ b.held ↔ b.Held i := by
  simp [held]

end Book

/-- The books are right, when `lost` was lost so far. -/
structure Sound [DecidableEq ι] (b : Book ι κ) (lost : Finset ι) : Prop where
  exclusive : ∀ {k k' i}, b.holds k = some i → b.holds k' = some i → k = k'
  marked_iff : ∀ i, b.marked i = true ↔ b.Held i ∨ i ∈ lost
  apart : ∀ {i}, b.Held i → i ∉ lost

namespace Sound

variable [DecidableEq ι] {b : Book ι κ} {lost : Finset ι} {k : κ} {i : ι}

theorem start : Sound (⟨fun _ => false, fun _ => none⟩ : Book ι κ) ∅ where
  exclusive h := by cases h
  marked_iff i := by simp [Book.Held]
  apart := by simp

theorem not_held (h : Sound b lost) (hi : b.marked i = false) : ¬ b.Held i := by
  intro hheld
  have hm := (h.marked_iff i).mpr (.inl hheld)
  rw [hi] at hm
  cases hm

theorem not_lost (h : Sound b lost) (hi : b.marked i = false) : i ∉ lost := by
  intro hlost
  have hm := (h.marked_iff i).mpr (.inr hlost)
  rw [hi] at hm
  cases hm

section

variable [DecidableEq κ]

theorem held_take (hk : b.holds k = none) {j : ι} :
    (b.take k i).Held j ↔ j = i ∨ b.Held j := by
  constructor
  · rintro ⟨k', hk'⟩
    by_cases heq : k' = k
    · subst heq
      simp only [Book.take, Function.update_self, Option.some.injEq] at hk'
      exact .inl hk'.symm
    · simp only [Book.take, Function.update_of_ne heq] at hk'
      exact .inr ⟨k', hk'⟩
  · rintro (rfl | ⟨k', hk'⟩)
    · exact ⟨k, Function.update_self ..⟩
    · refine ⟨k', ?_⟩
      have hne : k' ≠ k := by
        rintro rfl
        rw [hk] at hk'
        cases hk'
      show Function.update b.holds k (some i) k' = some j
      rw [Function.update_of_ne hne, hk']

theorem take (h : Sound b lost) (hk : b.holds k = none) (hi : b.marked i = false) :
    Sound (b.take k i) lost where
  exclusive := by
    intro k₁ k₂ j h₁ h₂
    have hno : ∀ k', b.holds k' ≠ some i := fun k' hk' => h.not_held hi ⟨k', hk'⟩
    by_cases e₁ : k₁ = k
    · by_cases e₂ : k₂ = k
      · rw [e₁, e₂]
      · subst e₁
        simp only [Book.take, Function.update_self, Option.some.injEq,
          Function.update_of_ne e₂] at h₁ h₂
        exact absurd (h₁ ▸ h₂) (hno k₂)
    · by_cases e₂ : k₂ = k
      · subst e₂
        simp only [Book.take, Function.update_self, Option.some.injEq,
          Function.update_of_ne e₁] at h₁ h₂
        exact absurd (h₂ ▸ h₁) (hno k₁)
      · simp only [Book.take, Function.update_of_ne e₁, Function.update_of_ne e₂] at h₁ h₂
        exact h.exclusive h₁ h₂
  marked_iff j := by
    rw [held_take hk]
    show Function.update b.marked i true j = true ↔ _
    by_cases hj : j = i
    · subst hj
      simp
    · rw [Function.update_of_ne hj, h.marked_iff j]
      simp [hj]
  apart := by
    intro j hj
    rcases (held_take hk).mp hj with rfl | hj
    · exact h.not_lost hi
    · exact h.apart hj

theorem held_giveBack (h : Sound b lost) (hk : b.holds k = some i) {j : ι} :
    (b.giveBack k i).Held j ↔ j ≠ i ∧ b.Held j := by
  constructor
  · rintro ⟨k', hk'⟩
    have hne : k' ≠ k := by
      rintro rfl
      simp [Book.giveBack] at hk'
    simp only [Book.giveBack, Function.update_of_ne hne] at hk'
    refine ⟨?_, k', hk'⟩
    rintro rfl
    exact hne (h.exclusive hk' hk)
  · rintro ⟨hne, k', hk'⟩
    refine ⟨k', ?_⟩
    have hk'' : k' ≠ k := by
      rintro rfl
      exact hne (Option.some.inj (hk'.symm.trans hk))
    show Function.update b.holds k none k' = some j
    rw [Function.update_of_ne hk'', hk']

theorem giveBack (h : Sound b lost) (hk : b.holds k = some i) : Sound (b.giveBack k i) lost where
  exclusive := by
    intro k₁ k₂ j h₁ h₂
    have hof : ∀ {k'}, (b.giveBack k i).holds k' = some j → b.holds k' = some j := by
      intro k' hk'
      have hne : k' ≠ k := by
        rintro rfl
        simp [Book.giveBack] at hk'
      simpa only [Book.giveBack, Function.update_of_ne hne] using hk'
    exact h.exclusive (hof h₁) (hof h₂)
  marked_iff j := by
    rw [h.held_giveBack hk]
    show Function.update b.marked i false j = true ↔ _
    by_cases hj : j = i
    · subst hj
      simp [h.apart ⟨k, hk⟩]
    · rw [Function.update_of_ne hj, h.marked_iff j]
      simp [hj]
  apart := fun hj => h.apart ((h.held_giveBack hk).mp hj).2

end

variable [Fintype ι] [Fintype κ]

theorem forget (h : Sound b lost) : Sound b.forget (lost ∪ b.held) where
  exclusive hk := by cases hk
  marked_iff i := by
    have hno : ¬ b.forget.Held i := by
      rintro ⟨k, hk⟩
      cases hk
    rw [Finset.mem_union, Book.mem_held, @or_comm (i ∈ lost), ← h.marked_iff i]
    exact ⟨.inr, fun hm => hm.resolve_left hno⟩
  apart := by
    rintro i ⟨k, hk⟩
    cases hk

/-- The marks count the holders and the losses. -/
theorem card_marked (h : Sound b lost) :
    (Finset.univ.filter fun i => b.marked i = true).card =
      (Finset.univ.filter fun k => (b.holds k).isSome = true).card + lost.card := by
  have hheld : (Finset.univ.filter fun k => (b.holds k).isSome = true).card = b.held.card := by
    apply Finset.card_bij (fun k hk => (b.holds k).get (by simpa using hk))
    · intro k hk
      rw [Book.mem_held]
      exact ⟨k, by simp⟩
    · intro k hk k' hk' heq
      have hs : b.holds k = some ((b.holds k').get (by simpa using hk')) := by
        rw [← heq]
        simp
      exact h.exclusive hs (by simp)
    · intro i hi
      obtain ⟨k, hk⟩ := Book.mem_held.mp hi
      exact ⟨k, by simp [hk], by simp [hk]⟩
  have hsplit : (Finset.univ.filter fun i => b.marked i = true) = b.held ∪ lost := by
    ext i
    rw [Finset.mem_union, Book.mem_held, ← h.marked_iff i]
    simp
  rw [hsplit, hheld, Finset.card_union_of_disjoint]
  rw [Finset.disjoint_left]
  intro i hi
  exact h.apart (Book.mem_held.mp hi)

end Sound

end Leases
