/-
Lando/EarlyPayload32.lean

The probe for the early payload (`control.rs`, `parse_early_payload`) where
`usize` has 32 bits, as on the device.

The length field is the server's, and `start + len` is computed in a machine
word.  It wraps exactly for a field of `2 ^ 32 - 9` or more.  A build with
overflow checks panics at the addition; one without goes on with

    start + len - 2 ^ 32 < start,

which is no more than the buffer holds, and panics at the slice.  Below that the
probe is the one over the integers.
-/
import Lando.EarlyPayload

namespace Usize

/-! ### Machine words of 32 bits -/

/-- Why a program stops. -/
inductive Panic
  | addOverflow
  | sliceOrder
  | sliceEnd
  deriving DecidableEq, Repr

/-- `a + b`, with or without overflow checks. -/
def add (checks : Bool) (a b : UInt32) : Except Panic UInt32 :=
  if checks = true ∧ 2 ^ 32 ≤ a.toNat + b.toNat then .error .addOverflow else .ok (a + b)

/-- `&buf[lo..hi]`. -/
def slice (buf : List UInt8) (lo hi : UInt32) : Except Panic (List UInt8) :=
  if hi < lo then .error .sliceOrder
  else if buf.length < hi.toNat then .error .sliceEnd
  else .ok (Bytes.slice buf lo.toNat hi.toNat)

/-- A slice of bytes: never longer than `isize::MAX`. -/
structure Buffer where
  bytes : List UInt8
  fits : bytes.length < 2 ^ 31

/-- `buf.len()`. -/
def Buffer.len (buf : Buffer) : UInt32 := .ofNat buf.bytes.length

@[simp] theorem Buffer.toNat_len (buf : Buffer) : buf.len.toNat = buf.bytes.length := by
  have hfits := buf.fits
  rw [len, UInt32.toNat_ofNat']
  omega

theorem add_of_lt (checks : Bool) {a b : UInt32} (h : a.toNat + b.toNat < 2 ^ 32) :
    add checks a b = .ok (a + b) ∧ (a + b).toNat = a.toNat + b.toNat := by
  refine ⟨if_neg fun hover => Nat.not_le.mpr h hover.2, ?_⟩
  rw [UInt32.toNat_add, Nat.mod_eq_of_lt h]

theorem add_of_ge {a b : UInt32} (h : 2 ^ 32 ≤ a.toNat + b.toNat) :
    add true a b = .error .addOverflow ∧ add false a b = .ok (a + b) ∧
      (a + b).toNat = a.toNat + b.toNat - 2 ^ 32 := by
  refine ⟨if_pos ⟨rfl, h⟩, if_neg fun hover => Bool.false_ne_true hover.1, ?_⟩
  have ha := a.toNat_lt
  have hb := b.toNat_lt
  rw [UInt32.toNat_add]
  omega

theorem ok_bind {α β : Type} (a : α) (f : α → Except Panic β) :
    (Except.ok a >>= f : Except Panic β) = f a := rfl

theorem error_bind {α β : Type} (e : Panic) (f : α → Except Panic β) :
    (Except.error e >>= f : Except Panic β) = .error e := rfl

theorem slice_of_le {buf : List UInt8} {lo hi : UInt32} (hlo : lo.toNat ≤ hi.toNat)
    (hhi : hi.toNat ≤ buf.length) : slice buf lo hi = .ok (Bytes.slice buf lo.toNat hi.toNat) := by
  have horder : ¬ hi < lo := fun h => Nat.not_lt.mpr hlo (UInt32.lt_iff_toNat_lt.mp h)
  rw [slice, if_neg horder, if_neg (Nat.not_lt.mpr hhi)]

end Usize

namespace Lando.Control

open Bytes

/-! ### The probe on the device -/

/-- The length field behind the magic. -/
def lenField (buf : List UInt8) : ℕ :=
  fromBE (slice buf earlyPayloadMagic.length (earlyPayloadMagic.length + 4))

/-- `parse_early_payload`, its sums and slices in words of 32 bits. -/
def parseEarlyPayload32 (checks : Bool) (buf : Usize.Buffer) : Except Usize.Panic EarlyPayload :=
  let magic := earlyPayloadMagic
  let common := min buf.bytes.length magic.length
  if buf.bytes.take common ≠ magic.take common then .ok .absent
  else if buf.len < 5 + 4 then .ok .incomplete
  else do
    let len : UInt32 := .ofNat (lenField buf.bytes)
    let start ← Usize.add checks 5 4
    let stop ← Usize.add checks start len
    if buf.len < stop then .ok .incomplete
    else do
      let consumed ← Usize.add checks start len
      let stop ← Usize.add checks start len
      let json ← Usize.slice buf.bytes start stop
      .ok (.present consumed.toNat json)

/-- The length field stands behind the magic, and the sum wraps. -/
def Wraps (buf : List UInt8) : Prop :=
  earlyPayloadMagic <+: buf ∧ 9 ≤ buf.length ∧ 2 ^ 32 ≤ 9 + lenField buf

instance (buf : List UInt8) : Decidable (Wraps buf) := inferInstanceAs (Decidable (_ ∧ _))

theorem lenField_lt (buf : List UInt8) : lenField buf < 2 ^ 32 := by
  have hlt := fromBE_lt (slice buf earlyPayloadMagic.length (earlyPayloadMagic.length + 4))
  have hle : (slice buf earlyPayloadMagic.length (earlyPayloadMagic.length + 4)).length ≤ 4 := by
    rw [slice, List.length_take]
    omega
  calc lenField buf < 256 ^ _ := hlt
    _ ≤ 256 ^ 4 := Nat.pow_le_pow_right (by decide) hle
    _ = 2 ^ 32 := by decide

theorem toNat_lenField (buf : List UInt8) : (UInt32.ofNat (lenField buf)).toNat = lenField buf := by
  rw [UInt32.toNat_ofNat', Nat.mod_eq_of_lt (lenField_lt buf)]

theorem add_header (checks : Bool) : Usize.add checks 5 4 = .ok 9 := by
  cases checks <;> rfl

theorem len_lt_header_iff (buf : Usize.Buffer) : buf.len < 5 + 4 ↔ buf.bytes.length < 9 := by
  rw [UInt32.lt_iff_toNat_lt, buf.toNat_len]
  rfl

theorem parseEarlyPayload_eq (buf : List UInt8) :
    parseEarlyPayload buf =
      if buf.take (min buf.length earlyPayloadMagic.length) ≠
          earlyPayloadMagic.take (min buf.length earlyPayloadMagic.length) then .absent
      else if buf.length < 9 then .incomplete
      else if buf.length < 9 + lenField buf then .incomplete
      else .present (9 + lenField buf) (slice buf 9 (9 + lenField buf)) := rfl

/-- **Where no sum wraps, the probe is the one over the integers.** -/
theorem parseEarlyPayload32_eq (checks : Bool) {buf : Usize.Buffer} (h : ¬ Wraps buf.bytes) :
    parseEarlyPayload32 checks buf = .ok (parseEarlyPayload buf.bytes) := by
  rw [parseEarlyPayload_eq]
  unfold parseEarlyPayload32
  simp only [len_lt_header_iff]
  by_cases hmagic : buf.bytes.take (min buf.bytes.length earlyPayloadMagic.length) =
      earlyPayloadMagic.take (min buf.bytes.length earlyPayloadMagic.length)
  · rw [if_neg (not_not.mpr hmagic), if_neg (not_not.mpr hmagic)]
    by_cases hshort : buf.bytes.length < 9
    · rw [if_pos hshort, if_pos hshort]
    · rw [if_neg hshort, if_neg hshort]
      have hlong : 9 ≤ buf.bytes.length := Nat.not_lt.mp hshort
      have hfits : (9 : UInt32).toNat + (UInt32.ofNat (lenField buf.bytes)).toNat < 2 ^ 32 := by
        rw [toNat_lenField]
        exact Nat.not_le.mp fun hge => h ⟨magic_prefix_of_le (take_min_eq_iff.mp hmagic) hlong, hlong, hge⟩
      obtain ⟨hadd, hsum⟩ := Usize.add_of_lt checks hfits
      rw [toNat_lenField] at hsum
      -- both sums are the ones over the integers
      have hstop : buf.len < 9 + UInt32.ofNat (lenField buf.bytes) ↔
          buf.bytes.length < 9 + lenField buf.bytes := by
        rw [UInt32.lt_iff_toNat_lt, buf.toNat_len, hsum]
        rfl
      simp only [add_header, Usize.ok_bind, hadd, hstop]
      by_cases hbody : buf.bytes.length < 9 + lenField buf.bytes
      · rw [if_pos hbody, if_pos hbody]
      · rw [if_neg hbody, if_neg hbody, Usize.slice_of_le (by rw [hsum]; exact Nat.le_add_right _ _)
          (by rw [hsum]; exact Nat.not_lt.mp hbody), hsum]
        rfl
  · rw [if_pos hmagic, if_pos hmagic]

/-- **Where a sum wraps, the probe panics**, at the addition or at the slice. -/
theorem parseEarlyPayload32_wraps {buf : Usize.Buffer} (h : Wraps buf.bytes) :
    parseEarlyPayload32 true buf = .error .addOverflow ∧
      parseEarlyPayload32 false buf = .error .sliceOrder := by
  obtain ⟨hfront, hlong, hge⟩ := h
  have hmagic := take_min_eq_iff.mpr (.inr hfront)
  have hshort : ¬ buf.bytes.length < 9 := Nat.not_lt.mpr hlong
  have hwrap : 2 ^ 32 ≤ (9 : UInt32).toNat + (UInt32.ofNat (lenField buf.bytes)).toNat := by
    rw [toNat_lenField]
    exact hge
  obtain ⟨hchecked, hunchecked, hsum⟩ := Usize.add_of_ge hwrap
  have hlt := lenField_lt buf.bytes
  have hnine : (9 : UInt32).toNat = 9 := rfl
  rw [toNat_lenField, hnine] at hsum
  -- the wrapped end stands in front of the start
  have horder : 9 + UInt32.ofNat (lenField buf.bytes) < 9 := by
    rw [UInt32.lt_iff_toNat_lt, hsum, hnine]
    omega
  have hstop : ¬ buf.len < 9 + UInt32.ofNat (lenField buf.bytes) := by
    rw [UInt32.lt_iff_toNat_lt, buf.toNat_len, hsum]
    omega
  unfold parseEarlyPayload32
  simp only [len_lt_header_iff, if_neg (not_not.mpr hmagic), if_neg hshort, add_header]
  refine ⟨?_, ?_⟩
  · rw [Usize.ok_bind, hchecked, Usize.error_bind]
  · rw [Usize.ok_bind, hunchecked, Usize.ok_bind, if_neg hstop, Usize.ok_bind, Usize.ok_bind,
      Usize.slice, if_pos horder, Usize.error_bind]

/-- **When the probe is safe on the device**: it returns, with and without
overflow checks, and stays open as long as the integers say so, exactly if no sum
wraps. -/
theorem parseEarlyPayload32_safe_iff (buf : Usize.Buffer) :
    ((∀ checks, ∃ v, parseEarlyPayload32 checks buf = .ok v) ∧
      (earlyPayloadMagic <+: buf.bytes → 9 ≤ buf.bytes.length →
        buf.bytes.length < 9 + lenField buf.bytes →
        ∀ checks, parseEarlyPayload32 checks buf = .ok .incomplete)) ↔ ¬ Wraps buf.bytes := by
  constructor
  · rintro ⟨hok, -⟩ hwraps
    obtain ⟨v, hv⟩ := hok true
    cases hv.symm.trans (parseEarlyPayload32_wraps hwraps).1
  · intro h
    refine ⟨fun checks => ⟨_, parseEarlyPayload32_eq checks h⟩, ?_⟩
    intro hfront hlong hmore checks
    rw [parseEarlyPayload32_eq checks h, parseEarlyPayload_eq,
      if_neg (not_not.mpr (take_min_eq_iff.mpr (.inr hfront))), if_neg (Nat.not_lt.mpr hlong),
      if_pos hmore]

/-- The magic, and the greatest length that the field can hold. -/
def greatestLength : Usize.Buffer where
  bytes := earlyPayloadMagic ++ [0xff, 0xff, 0xff, 0xff]
  fits := by decide

theorem parseEarlyPayload32_panics :
    parseEarlyPayload32 true greatestLength = .error .addOverflow ∧
      parseEarlyPayload32 false greatestLength = .error .sliceOrder ∧
      parseEarlyPayload greatestLength.bytes = .incomplete := by
  refine ⟨?_, ?_, ?_⟩ <;> decide +kernel

end Lando.Control
