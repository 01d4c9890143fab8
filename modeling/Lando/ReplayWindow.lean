/-
Lando/ReplayWindow.lean

The sliding-window replay filter of the WireGuard data path
(`wireguard/transport.rs`).

The source keeps `highest`, a bitmap of 32 words of 64 bits, and a flag that
tells "counter 0 not seen" from "counter 0 seen".  The bit of a counter is
its residue modulo 2048, so the bitmap is a ring; a small move forward
clears the bits it vacates one by one, a large one clears them all.

The model keeps the words and the shifts.  `slots` reads the bitmap as a
ring of booleans, and one lemma per operation (`slots_set`, `slots_clear`,
`slots_shiftLeft`) says what it does there; from that point on the words do
not appear, and the filter is an instance of `SlidingWindow.Tracks`.

`Represents` ties a window to the counters accepted so far.  It holds of a
fresh window and is kept by `accept` (`Represents.accept`), so the verdict
of every call of every run is the set-theoretic one.
-/
import Mathlib.Tactic.Ring
import Mathlib.Data.List.Induction
import Lando.SlidingWindow

namespace Lando

open SlidingWindow

/-! ### The window -/

/-- `REJECT_AFTER_MESSAGES`: the counter at which a key must no longer be
used, `u64::MAX - (1 << 13) - 1`. -/
def rejectAfterMessages : UInt64 := (0xFFFFFFFFFFFFFFFF : UInt64) - (1 : UInt64) <<< (13 : UInt64) - 1

/-- `WINDOW_BITS`. -/
def windowBits : UInt64 := 2048

/-- `WINDOW_WORDS`. -/
def windowWords : ℕ := 32

theorem rejectAfterMessages_toNat :
    rejectAfterMessages.toNat = 18446744073709543422 := by decide

theorem windowBits_toNat : windowBits.toNat = 2048 := rfl

/-- The replay filter. -/
structure ReplayWindow where
  highest : UInt64
  bits : Vector UInt64 windowWords
  /-- Tells "counter 0 not yet seen" from "counter 0 seen". -/
  started : Bool
  deriving DecidableEq

namespace ReplayWindow

/-- A window that has seen nothing. -/
def new : ReplayWindow where
  highest := 0
  bits := Vector.replicate windowWords 0
  started := false

/-- The word and the bit of a counter: its residue modulo 2048, split at 64. -/
def index (counter : UInt64) : Fin windowWords × Fin 64 :=
  let bit := (counter % windowBits).toNat
  (⟨bit / 64, by
      have h : bit < 2048 := by
        simp only [bit, UInt64.toNat_mod, windowBits_toNat]
        exact Nat.mod_lt _ (by decide)
      simp only [windowWords]
      omega⟩,
    ⟨bit % 64, Nat.mod_lt _ (by decide)⟩)

/-- The mask `1u64 << b`. -/
def mask (b : Fin 64) : UInt64 := 1 <<< UInt64.ofNat b.val

/-- Whether the bit of a counter is set. -/
def get (w : ReplayWindow) (counter : UInt64) : Bool :=
  let (i, b) := index counter
  w.bits[i] &&& mask b != 0

/-- Sets the bit of a counter. -/
def set (w : ReplayWindow) (counter : UInt64) : ReplayWindow :=
  let (i, b) := index counter
  { w with bits := w.bits.set i (w.bits[i] ||| mask b) }

/-- Clears the bit of a counter, the body of the loop in `shift_left`. -/
def clear (w : ReplayWindow) (counter : UInt64) : ReplayWindow :=
  let (i, b) := index counter
  { w with bits := w.bits.set i (w.bits[i] &&& ~~~(mask b)) }

/-- Clears the bits vacated by moving the window forward by `shift`. -/
def shiftLeft (w : ReplayWindow) (shift : UInt64) : ReplayWindow :=
  (List.range' 1 shift.toNat).foldl
    (fun w' i => w'.clear (w.highest + UInt64.ofNat i)) w

/-- Records `counter` as seen; `false` if it is a replay or too old. -/
def accept (w : ReplayWindow) (counter : UInt64) : ReplayWindow × Bool :=
  if rejectAfterMessages ≤ counter then (w, false)
  else if !w.started then
    (({ w with started := true, highest := counter }).set counter, true)
  else if w.highest < counter then
    let shift := counter - w.highest
    let w' :=
      if windowBits ≤ shift then { w with bits := Vector.replicate windowWords 0 }
      else w.shiftLeft shift
    (({ w' with highest := counter }).set counter, true)
  else
    let behind := w.highest - counter
    if windowBits ≤ behind then (w, false)
    else if w.get counter then (w, false)
    else (w.set counter, true)

/-! ### The bitmap as a ring of booleans -/

/-- Slot `i` of the ring: bit `i % 64` of word `i / 64`. -/
def slots (w : ReplayWindow) (i : ℕ) : Bool :=
  if h : i < 2048 then
    (w.bits[(⟨i / 64, by simp only [windowWords]; omega⟩ : Fin windowWords)]).toBitVec.getLsbD (i % 64)
  else false

theorem getLsbD_mask (b c : Fin 64) :
    (mask b).toBitVec.getLsbD c = decide (b = c) := by
  revert b c
  decide +kernel

/-- A word masked with one bit is nonzero exactly when that bit is set. -/
theorem and_mask_ne_zero (x : UInt64) (b : Fin 64) :
    (x &&& mask b != 0) = x.toBitVec.getLsbD b := by
  rw [Bool.eq_iff_iff, bne_iff_ne, ← not_iff_not, not_ne_iff, Bool.not_eq_true]
  constructor
  · intro h
    have hb := congrArg (fun y : UInt64 => y.toBitVec.getLsbD b) h
    simpa only [UInt64.toBitVec_and, BitVec.getLsbD_and, getLsbD_mask, decide_true,
      Bool.and_true, UInt64.toBitVec_zero, BitVec.getLsbD_zero] using hb
  · intro h
    apply UInt64.toBitVec_inj.mp
    apply BitVec.eq_of_getLsbD_eq
    intro i hi
    have hm : (mask b).toBitVec.getLsbD i = decide (b = ⟨i, hi⟩) := getLsbD_mask b ⟨i, hi⟩
    rw [UInt64.toBitVec_and, BitVec.getLsbD_and, hm]
    by_cases e : b = ⟨i, hi⟩
    · rw [e] at h
      simp only [h, Bool.false_and, UInt64.toBitVec_zero, BitVec.getLsbD_zero]
    · simp [e]

/-- The slot number of a counter. -/
theorem toNat_mod_windowBits (c : UInt64) : (c % windowBits).toNat = c.toNat % 2048 := by
  rw [UInt64.toNat_mod, windowBits_toNat]

theorem get_eq_slots (w : ReplayWindow) (c : UInt64) :
    w.get c = w.slots (c.toNat % 2048) := by
  have h : c.toNat % 2048 < 2048 := Nat.mod_lt _ (by decide)
  simp only [get, index, and_mask_ne_zero, toNat_mod_windowBits, slots, h, dite_true]

/-- A change of one word at the bit of `c`, read slot by slot. -/
theorem slots_modify (w w' : ReplayWindow) (c : UInt64) (f : UInt64 → UInt64) (v : Bool)
    (hw : w'.bits = w.bits.set (index c).1 (f w.bits[(index c).1]))
    (hf : ∀ x (b : Fin 64),
      (f x).toBitVec.getLsbD b = if b = (index c).2 then v else x.toBitVec.getLsbD b) :
    w'.slots = put w.slots (c.toNat % 2048) v := by
  funext i
  have hc : c.toNat % 2048 < 2048 := Nat.mod_lt _ (by decide)
  by_cases h : i < 2048
  · have hb := hf w.bits[(index c).1] ⟨i % 64, Nat.mod_lt _ (by decide)⟩
    simp only [slots, put, h, dite_true, hw, Fin.getElem_fin, Vector.getElem_set] at hb ⊢
    simp only [index, toNat_mod_windowBits, Fin.mk.injEq] at hb ⊢
    by_cases hword : c.toNat % 2048 / 64 = i / 64
    · simp only [hword, if_true] at hb ⊢
      rw [hb]
      by_cases hbit : i % 64 = c.toNat % 2048 % 64
      · have hi : i = c.toNat % 2048 := by omega
        simp [← hi]
      · have hi : i ≠ c.toNat % 2048 := fun e => hbit (by rw [e])
        simp only [hbit, hi, if_false]
    · have hi : i ≠ c.toNat % 2048 := fun e => hword (by rw [e])
      simp [hword, hi]
  · have hi : i ≠ c.toNat % 2048 := by omega
    simp [slots, put, h, hi]

theorem slots_set (w : ReplayWindow) (c : UInt64) :
    (w.set c).slots = put w.slots (c.toNat % 2048) true := by
  refine slots_modify w (w.set c) c (· ||| mask (index c).2) true rfl ?_
  intro x b
  rw [UInt64.toBitVec_or, BitVec.getLsbD_or, getLsbD_mask]
  by_cases e : b = (index c).2
  · simp [e]
  · simp [e, Ne.symm e]

theorem slots_clear (w : ReplayWindow) (c : UInt64) :
    (w.clear c).slots = put w.slots (c.toNat % 2048) false := by
  refine slots_modify w (w.clear c) c (· &&& ~~~(mask (index c).2)) false rfl ?_
  intro x b
  have hb : (b : ℕ) < 64 := b.isLt
  rw [UInt64.toBitVec_and, BitVec.getLsbD_and, UInt64.toBitVec_not, BitVec.getLsbD_not,
    getLsbD_mask]
  by_cases e : b = (index c).2
  · simp [e]
  · simp [e, Ne.symm e, hb]

/-- Every slot of an emptied bitmap is clear. -/
theorem slots_of_bits_zero {w : ReplayWindow}
    (h : w.bits = Vector.replicate windowWords 0) : w.slots = fun _ => false := by
  funext i
  simp [slots, h, Fin.getElem_fin]

/-! ### The loop of `shift_left` -/

theorem started_foldl_clear (g : ℕ → UInt64) (l : List ℕ) (w : ReplayWindow) :
    (l.foldl (fun w' i => w'.clear (g i)) w).started = w.started := by
  induction l generalizing w with
  | nil => rfl
  | cons i l ih =>
      rw [List.foldl_cons, ih]
      rfl

/-- The loop clears the slot of every counter it visits and no other. -/
theorem slots_foldl_clear (g : ℕ → UInt64) (l : List ℕ) (w : ReplayWindow) (j : ℕ) :
    (l.foldl (fun w' i => w'.clear (g i)) w).slots j =
      if ∃ i ∈ l, j = (g i).toNat % 2048 then false else w.slots j := by
  induction l generalizing w with
  | nil => simp
  | cons i l ih =>
      rw [List.foldl_cons, ih, slots_clear, put]
      by_cases hl : ∃ i ∈ l, j = (g i).toNat % 2048
      · simp [hl]
      · by_cases hi : j = (g i).toNat % 2048 <;> simp [hl, hi]

/-- No addition of `shift_left` wraps, provided the new highest counter is a
`u64` at all. -/
theorem highest_add_toNat {w : ReplayWindow} {c : UInt64} (hc : w.highest < c) {i : ℕ}
    (hi : i ≤ (c - w.highest).toNat) :
    w.highest.toNat + i < 2 ^ 64 ∧
      (w.highest + UInt64.ofNat i).toNat = w.highest.toNat + i := by
  have hle : w.highest ≤ c := UInt64.le_of_lt hc
  rw [UInt64.toNat_sub_of_le _ _ hle] at hi
  have hlt := UInt64.lt_iff_toNat_lt.mp hc
  have hc64 : c.toNat < 2 ^ 64 := c.toNat_lt
  have hsum : w.highest.toNat + i < 2 ^ 64 := by omega
  refine ⟨hsum, ?_⟩
  rw [UInt64.toNat_add, UInt64.toNat_ofNat']
  omega

/-- `shift_left` clears the slots of the counters it brings into the window. -/
theorem slots_shiftLeft_clear {w : ReplayWindow} {c : UInt64} (hc : w.highest < c) {x : ℕ}
    (h₁ : w.highest.toNat < x) (h₂ : x ≤ c.toNat) :
    (w.shiftLeft (c - w.highest)).slots (x % 2048) = false := by
  have hsub := UInt64.toNat_sub_of_le _ _ (UInt64.le_of_lt hc)
  rw [shiftLeft, slots_foldl_clear, if_pos]
  refine ⟨x - w.highest.toNat, ?_, ?_⟩
  · rw [List.mem_range'_1, hsub]
    omega
  · rw [(highest_add_toNat hc (by omega)).2]
    congr 1
    omega

/-- `shift_left` leaves every other slot as it was. -/
theorem slots_shiftLeft_keep {w : ReplayWindow} {c : UInt64} (hc : w.highest < c) {j : ℕ}
    (hj : ∀ x, w.highest.toNat < x → x ≤ c.toNat → j ≠ x % 2048) :
    (w.shiftLeft (c - w.highest)).slots j = w.slots j := by
  have hsub := UInt64.toNat_sub_of_le _ _ (UInt64.le_of_lt hc)
  rw [shiftLeft, slots_foldl_clear, if_neg]
  rintro ⟨i, hi, e⟩
  rw [List.mem_range'_1, hsub] at hi
  rw [(highest_add_toNat hc (by omega)).2] at e
  exact hj _ (by omega) (by omega) e

/-! ### Runs -/

/-- One call on a window, with the counters accepted so far. -/
def runStep (st : ReplayWindow × List UInt64) (c : UInt64) : ReplayWindow × List UInt64 :=
  let (w, ok) := st.1.accept c
  (w, if ok then st.2 ++ [c] else st.2)

/-- The window and the accepted counters, in order, after feeding `cs` to a
fresh window. -/
def run (cs : List UInt64) : ReplayWindow × List UInt64 :=
  cs.foldl runStep (new, [])

/-- The accepted counters, as integers. -/
def seen (acc : List UInt64) : Set ℕ := {n | ∃ c ∈ acc, c.toNat = n}

@[simp] theorem mem_seen {acc : List UInt64} {c : UInt64} : c.toNat ∈ seen acc ↔ c ∈ acc :=
  ⟨fun ⟨_, hx, e⟩ => UInt64.toNat_inj.mp e ▸ hx, fun h => ⟨c, h, rfl⟩⟩

theorem seen_append (acc : List UInt64) (c : UInt64) :
    seen (acc ++ [c]) = insert c.toNat (seen acc) := by
  ext n
  simp [seen, or_comm, eq_comm]

/-- What the window knows of the counters accepted so far.  Before the first
one the bitmap is empty; afterwards `highest` is the largest of them and the
ring records the others. -/
structure Represents (w : ReplayWindow) (acc : List UInt64) : Prop where
  fresh : w.started = false → acc = [] ∧ w.slots = fun _ => false
  top_mem : w.started = true → w.highest ∈ acc
  top_le : ∀ c ∈ acc, c ≤ w.highest
  tracks : w.started = true → Tracks 2048 w.slots w.highest.toNat (seen acc)

theorem Represents.new : Represents new [] where
  fresh := fun _ => ⟨rfl, slots_of_bits_zero rfl⟩
  top_mem := fun h => absurd h (by decide)
  top_le := fun c hc => absurd hc List.not_mem_nil
  tracks := fun h => absurd h (by decide)

/-- The verdict a window that represents `acc` gives. -/
def Admits (acc : List UInt64) (c : UInt64) : Prop :=
  c < rejectAfterMessages ∧ c ∉ acc ∧
    (acc = [] ∨ ∃ h ∈ acc, (∀ x ∈ acc, x ≤ h) ∧ h.toNat < c.toNat + 2048)

theorem Represents.seen_le {w : ReplayWindow} {acc : List UInt64} (hr : Represents w acc) :
    ∀ x ∈ seen acc, x ≤ w.highest.toNat := by
  rintro _ ⟨c, hc, rfl⟩
  exact UInt64.le_iff_toNat_le.mp (hr.top_le c hc)

/-- A window whose ring is known to record `c` on top of `acc`. -/
theorem Represents.of_tracks {w : ReplayWindow} {acc : List UInt64} {c : UInt64}
    (hs : w.started = true) (hmem : w.highest ∈ acc ++ [c])
    (hle : ∀ x ∈ acc ++ [c], x ≤ w.highest)
    (ht : Tracks 2048 w.slots w.highest.toNat (insert c.toNat (seen acc))) :
    Represents w (acc ++ [c]) where
  fresh := fun h => absurd (hs.symm.trans h) (by decide)
  top_mem := fun _ => hmem
  top_le := hle
  tracks := fun _ => by rw [seen_append]; exact ht

/-- Every counter of `acc ++ [c]` is at most `c` when those of `acc` are. -/
theorem le_of_mem_append {acc : List UInt64} {c h : UInt64} (hle : ∀ x ∈ acc, x ≤ h)
    (hc : h ≤ c) : ∀ x ∈ acc ++ [c], x ≤ c := by
  intro x hx
  rcases List.mem_append.mp hx with hx | hx
  · exact UInt64.le_trans (hle x hx) hc
  · rw [List.mem_singleton.mp hx]
    exact UInt64.le_refl c

/-- The largest accepted counter is `highest`, so the window test of `Admits`
is a test against it. -/
theorem Represents.window_iff {w : ReplayWindow} {acc : List UInt64} (hr : Represents w acc)
    (hs : w.started = true) (c : UInt64) :
    (acc = [] ∨ ∃ h ∈ acc, (∀ x ∈ acc, x ≤ h) ∧ h.toNat < c.toNat + 2048) ↔
      w.highest.toNat < c.toNat + 2048 := by
  have hmem := hr.top_mem hs
  constructor
  · rintro (rfl | ⟨h, hh, hmax, hlt⟩)
    · exact absurd hmem List.not_mem_nil
    · have := UInt64.le_iff_toNat_le.mp (hmax _ hmem)
      omega
  · exact fun h => Or.inr ⟨w.highest, hmem, hr.top_le, h⟩

/-- The first packet. -/
theorem Represents.first {w : ReplayWindow} {acc : List UInt64} (hr : Represents w acc)
    (hs : w.started = false) (c : UInt64) :
    acc = [] ∧ Represents ({ w with started := true, highest := c }.set c) (acc ++ [c]) := by
  obtain ⟨rfl, hclear⟩ := hr.fresh hs
  refine ⟨rfl, Represents.of_tracks rfl (by simp [set]) (by simp [set]) ?_⟩
  rw [show seen [] = ∅ by simp [seen], slots_set, insert_empty_eq]
  have hsl : ({ w with started := true, highest := c } : ReplayWindow).slots = fun _ => false :=
    hclear
  rw [hsl]
  exact Tracks.first 2048 c.toNat

/-- A counter above the highest moves the window forward. -/
theorem Represents.forward {w : ReplayWindow} {acc : List UInt64} (hr : Represents w acc)
    (hs : w.started = true) {c : UInt64} (hgt : w.highest < c) :
    Represents ({ (if windowBits ≤ c - w.highest then
        { w with bits := Vector.replicate windowWords 0 }
      else w.shiftLeft (c - w.highest)) with highest := c }.set c) (acc ++ [c]) := by
  have hgt' := UInt64.lt_iff_toNat_lt.mp hgt
  have hsub := UInt64.toNat_sub_of_le _ _ (UInt64.le_of_lt hgt)
  have htop := le_of_mem_append hr.top_le (UInt64.le_of_lt hgt)
  by_cases hjump : windowBits ≤ c - w.highest
  · rw [if_pos hjump]
    refine Represents.of_tracks hs (by simp [set]) htop ?_
    rw [slots_set, slots_of_bits_zero (by rfl)]
    have hW := UInt64.le_iff_toNat_le.mp hjump
    rw [hsub, windowBits_toNat] at hW
    exact Tracks.jump hr.seen_le (by omega)
  · rw [if_neg hjump]
    have hst : (w.shiftLeft (c - w.highest)).started = true := by
      rw [← hs]
      exact started_foldl_clear _ _ w
    refine Represents.of_tracks hst (by simp [set]) htop ?_
    have hW := UInt64.lt_iff_toNat_lt.mp (UInt64.not_le.mp hjump)
    rw [hsub, windowBits_toNat] at hW
    rw [slots_set]
    exact (hr.tracks hs).advance hr.seen_le hgt' hW
      (fun x h₁ h₂ => slots_shiftLeft_clear hgt h₁ h₂)
      (fun i hi => slots_shiftLeft_keep hgt hi)

/-- A counter at or below the highest, inside the window: its bit tells
whether it was accepted, and setting it accepts it. -/
theorem Represents.behind {w : ReplayWindow} {acc : List UInt64} (hr : Represents w acc)
    (hs : w.started = true) {c : UInt64} (hle : c ≤ w.highest)
    (hwin : w.highest.toNat < c.toNat + 2048) :
    (w.get c = true ↔ c ∈ acc) ∧ Represents (w.set c) (acc ++ [c]) := by
  have htr := hr.tracks hs
  have hin : InWindow 2048 w.highest.toNat c.toNat := ⟨UInt64.le_iff_toNat_le.mp hle, hwin⟩
  constructor
  · rw [get_eq_slots, htr c.toNat hin, mem_seen]
  · refine Represents.of_tracks hs (List.mem_append_left _ (hr.top_mem hs)) ?_ ?_
    · intro x hx
      rcases List.mem_append.mp hx with hx | hx
      · exact hr.top_le x hx
      · rw [List.mem_singleton.mp hx]
        exact hle
    · rw [slots_set]
      exact htr.fill hin

/-- **One call.**  From a window that represents `acc`, the verdict on `c` is
`Admits acc c`; a refused counter changes nothing and an accepted one is
recorded. -/
theorem Represents.accept {w : ReplayWindow} {acc : List UInt64} (hr : Represents w acc)
    (c : UInt64) :
    (Admits acc c ∧ (w.accept c).2 = true ∧ Represents (w.accept c).1 (acc ++ [c])) ∨
      (¬ Admits acc c ∧ w.accept c = (w, false)) := by
  unfold ReplayWindow.accept
  by_cases hlim : rejectAfterMessages ≤ c
  · -- the limit of the key
    right
    refine ⟨fun h => UInt64.not_le.mpr h.1 hlim, ?_⟩
    rw [if_pos hlim]
  have hlt : c < rejectAfterMessages := UInt64.not_le.mp hlim
  rw [if_neg hlim]
  cases hs : w.started with
  | false =>
    -- the first counter of all
    left
    obtain ⟨rfl, hfirst⟩ := hr.first hs c
    exact ⟨⟨hlt, List.not_mem_nil, Or.inl rfl⟩, rfl, hfirst⟩
  | true =>
    have hwin := hr.window_iff hs c
    rw [if_neg (by decide)]
    by_cases hgt : w.highest < c
    · left
      -- ahead of the window, which moves forward
      have hgt' := UInt64.lt_iff_toNat_lt.mp hgt
      have hfresh : c ∉ acc := fun hm => UInt64.not_le.mpr hgt (hr.top_le c hm)
      rw [if_pos hgt]
      refine ⟨⟨hlt, hfresh, hwin.mpr (by omega)⟩, rfl, ?_⟩
      rw [← hs]
      exact hr.forward hs hgt
    rw [if_neg hgt]
    have hle : c ≤ w.highest := UInt64.not_lt.mp hgt
    have hle' := UInt64.le_iff_toNat_le.mp hle
    have hsub := UInt64.toNat_sub_of_le _ _ hle
    by_cases hold : windowBits ≤ w.highest - c
    · -- too old for the window
      right
      have hW := UInt64.le_iff_toNat_le.mp hold
      rw [hsub, windowBits_toNat] at hW
      refine ⟨fun h => ?_, by simp [hold]⟩
      have := hwin.mp h.2.2
      omega
    have hW := UInt64.lt_iff_toNat_lt.mp (UInt64.not_le.mp hold)
    rw [hsub, windowBits_toNat] at hW
    have hnear : w.highest.toNat < c.toNat + 2048 := by omega
    -- inside the window, where the bit decides
    obtain ⟨hget, hset⟩ := hr.behind hs hle hnear
    simp only [if_neg hold]
    by_cases hm : c ∈ acc
    · right
      exact ⟨fun h => h.2.1 hm, by simp [hget.mpr hm]⟩
    · left
      have hg : w.get c = false := by
        rw [← Bool.not_eq_true, hget]
        exact hm
      refine ⟨⟨hlt, hm, hwin.mpr hnear⟩, by simp [hg], ?_⟩
      simp only [hg, Bool.false_eq_true, if_false]
      exact hset

/-- A refused counter leaves the window as it was. -/
theorem accept_false {w : ReplayWindow} {c : UInt64} (h : (w.accept c).2 = false) :
    (w.accept c).1 = w := by
  revert h
  simp only [accept]
  split_ifs <;> simp

/-- Every run is represented, and accepts no counter twice. -/
theorem represents_run (cs : List UInt64) :
    Represents (run cs).1 (run cs).2 ∧ (run cs).2.Nodup := by
  induction cs using List.reverseRecOn with
  | nil => exact ⟨Represents.new, List.nodup_nil⟩
  | append_singleton cs c ih =>
      obtain ⟨hr, hn⟩ := ih
      have hstep : run (cs ++ [c]) = runStep (run cs) c := by
        simp [run, List.foldl_append]
      rw [hstep, runStep]
      rcases hr.accept c with ⟨hadm, htrue, hrep⟩ | ⟨_, heq⟩
      · simp only [htrue, if_true]
        refine ⟨hrep, ?_⟩
        simpa [List.nodup_append] using ⟨hn, fun a ha e => hadm.2.1 (e ▸ ha)⟩
      · simp only [heq, Bool.false_eq_true, if_false]
        exact ⟨hr, hn⟩

/-- **The replay filter is exact.**  After any sequence of counters, the call
on `c` answers `true` exactly when `c` is below the limit, was not accepted
before, and lies above `h - 2048` for the largest counter `h` accepted so
far, if any.  No counter is accepted twice, and where the call reaches
`shift_left` none of its additions leaves the `u64` range. -/
theorem accept_iff_fresh_in_window (cs : List UInt64) (c : UInt64) :
    (((run cs).1.accept c).2 = true ↔
      c < rejectAfterMessages ∧ c ∉ (run cs).2 ∧
        ((run cs).2 = [] ∨
          ∃ h ∈ (run cs).2, (∀ x ∈ (run cs).2, x ≤ h) ∧ h.toNat < c.toNat + 2048)) ∧
    (run (cs ++ [c])).2.Nodup ∧
    ((run cs).1.highest < c → ∀ i ∈ List.range' 1 (c - (run cs).1.highest).toNat,
      (run cs).1.highest.toNat + i < 2 ^ 64) := by
  refine ⟨?_, (represents_run (cs ++ [c])).2, ?_⟩
  · rcases (represents_run cs).1.accept c with ⟨hadm, htrue, _⟩ | ⟨hadm, heq⟩
    · exact iff_of_true htrue hadm
    · exact iff_of_false (by simp [heq]) hadm
  · intro hgt i hi
    rw [List.mem_range'_1] at hi
    exact (highest_add_toNat hgt (by omega)).1

end ReplayWindow

end Lando
