/-
Lando/Hex.lean

Hexadecimal notation: two lower-case digits a byte, read back in either case.

    decode (encode bs) = bs
-/
import Mathlib.Data.List.Basic
import Mathlib.Data.UInt

namespace Hex

/-- The digits, in ASCII. -/
def digits : List UInt8 := "0123456789abcdef".toUTF8.toList

/-- The digit of a number below 16. -/
def digit (n : UInt8) : UInt8 := digits.getD n.toNat 0

/-- The value of a digit. -/
def value (c : UInt8) : Option UInt8 :=
  if 0x30 ≤ c ∧ c ≤ 0x39 then some (c - 0x30)
  else if 0x61 ≤ c ∧ c ≤ 0x66 then some (c - 0x61 + 10)
  else if 0x41 ≤ c ∧ c ≤ 0x46 then some (c - 0x41 + 10)
  else none

/-- A digit, in either case. -/
def IsDigit (c : UInt8) : Prop :=
  0x30 ≤ c ∧ c ≤ 0x39 ∨ 0x61 ≤ c ∧ c ≤ 0x66 ∨ 0x41 ≤ c ∧ c ≤ 0x46

/-- A digit in lower case. -/
def lower (c : UInt8) : UInt8 := if 0x41 ≤ c ∧ c ≤ 0x46 then c + 0x20 else c

/-- The digits of bytes, the high one first. -/
def encode (bs : List UInt8) : List UInt8 :=
  bs.flatMap fun b : UInt8 => [digit (b >>> 4), digit (b &&& 0xf)]

/-- The bytes of digits, two by two.  One left over is not looked at. -/
def decode : List UInt8 → Option (List UInt8)
  | a :: b :: rest => do
      let hi ← value a
      let lo ← value b
      return (hi <<< 4 ||| lo) :: (← decode rest)
  | _ => some []

/-- What holds of every byte of a table of 256 holds of every byte. -/
theorem forall_byte {p : UInt8 → Prop} (h : ∀ n : Fin 256, p (.ofNat n.val)) (b : UInt8) : p b := by
  have hb := h ⟨b.toNat, b.toNat_lt⟩
  rwa [UInt8.ofNat_toNat] at hb

theorem value_digits (b : UInt8) :
    value (digit (b >>> 4)) = some (b >>> 4) ∧ value (digit (b &&& 0xf)) = some (b &&& 0xf) ∧
      (b >>> 4) <<< 4 ||| (b &&& 0xf) = b := by
  revert b
  apply forall_byte
  decide +kernel

theorem digit_mem (b : UInt8) : digit (b >>> 4) ∈ digits ∧ digit (b &&& 0xf) ∈ digits := by
  revert b
  apply forall_byte
  decide +kernel

theorem encode_cons (b : UInt8) (bs : List UInt8) :
    encode (b :: bs) = digit (b >>> 4) :: digit (b &&& 0xf) :: encode bs := rfl

@[simp] theorem length_encode (bs : List UInt8) : (encode bs).length = 2 * bs.length := by
  induction bs with
  | nil => rfl
  | cons b bs ih =>
    rw [encode_cons, List.length_cons, List.length_cons, ih, List.length_cons]
    omega

@[simp] theorem decode_encode (bs : List UInt8) : decode (encode bs) = some bs := by
  induction bs with
  | nil => rfl
  | cons b bs ih =>
    obtain ⟨hhi, hlo, hjoin⟩ := value_digits b
    rw [encode_cons, decode, hhi, hlo, ih]
    simp only [Option.bind_eq_bind, Option.bind_some, hjoin]
    rfl

theorem length_decode {s bs : List UInt8} (h : decode s = some bs) : bs.length = s.length / 2 := by
  induction s using decode.induct generalizing bs with
  | case1 a b rest ih =>
    rw [decode] at h
    simp only [Option.bind_eq_bind, Option.bind_eq_some_iff, Option.pure_def,
      Option.some.injEq] at h
    obtain ⟨-, -, -, -, bs, hbs, rfl⟩ := h
    rw [List.length_cons, ih hbs, List.length_cons, List.length_cons]
    omega
  | case2 s hs =>
    rcases s with - | ⟨a, - | ⟨b, rest⟩⟩
    · obtain rfl := Option.some.inj h
      rfl
    · obtain rfl := Option.some.inj h
      simp
    · exact (hs a b rest rfl).elim

/-! ### Every text -/

theorem value_isSome_iff (c : UInt8) : (value c).isSome = true ↔ IsDigit c := by
  unfold value IsDigit
  split_ifs with h₁ h₂ h₃
  · exact iff_of_true rfl (.inl h₁)
  · exact iff_of_true rfl (.inr (.inl h₂))
  · exact iff_of_true rfl (.inr (.inr h₃))
  · exact iff_of_false Bool.false_ne_true fun h => h.elim h₁ fun h => h.elim h₂ h₃

/-- A value is written as its digit in lower case. -/
theorem digit_value {c v : UInt8} (h : value c = some v) : v < 16 ∧ digit v = lower c := by
  have table : ∀ c, (value c).all (fun v => v < 16 ∧ digit v = lower c) = true := by
    apply forall_byte
    decide +kernel
  have hc := table c
  rw [h] at hc
  exact of_decide_eq_true hc

/-- A byte falls apart into what it was joined from. -/
theorem halves_join {hi lo : UInt8} (hhi : hi < 16) (hlo : lo < 16) :
    (hi <<< 4 ||| lo) >>> 4 = hi ∧ (hi <<< 4 ||| lo) &&& 0xf = lo := by
  have table : ∀ m n : Fin 16,
      (UInt8.ofNat m.val <<< 4 ||| UInt8.ofNat n.val) >>> 4 = UInt8.ofNat m.val ∧
      (UInt8.ofNat m.val <<< 4 ||| UInt8.ofNat n.val) &&& 0xf = UInt8.ofNat n.val := by
    decide +kernel
  have h := table ⟨hi.toNat, hhi⟩ ⟨lo.toNat, hlo⟩
  rwa [UInt8.ofNat_toNat, UInt8.ofNat_toNat] at h

/-- Just the digits are decoded. -/
theorem exists_decode_iff {s : List UInt8} (hlen : s.length % 2 = 0) :
    (∃ bs, decode s = some bs) ↔ ∀ c ∈ s, IsDigit c := by
  induction s using decode.induct with
  | case1 a b rest ih =>
    have hrest : rest.length % 2 = 0 := by
      simp only [List.length_cons] at hlen
      omega
    rw [List.forall_mem_cons, List.forall_mem_cons, ← ih hrest, ← value_isSome_iff,
      ← value_isSome_iff, decode]
    cases value a with
    | none => simp
    | some hi =>
      cases value b with
      | none => simp
      | some lo => cases decode rest <;> simp
  | case2 s hs =>
    rcases s with - | ⟨a, - | ⟨b, rest⟩⟩
    · exact iff_of_true ⟨[], rfl⟩ nofun
    · simp only [List.length_cons, List.length_nil] at hlen
      omega
    · exact (hs a b rest rfl).elim

/-- **What is decoded is encoded in lower case.** -/
theorem encode_decode {s bs : List UInt8} (hlen : s.length % 2 = 0) (h : decode s = some bs) :
    encode bs = s.map lower := by
  induction s using decode.induct generalizing bs with
  | case1 a b rest ih =>
    rw [decode] at h
    simp only [Option.bind_eq_bind, Option.bind_eq_some_iff, Option.pure_def,
      Option.some.injEq] at h
    obtain ⟨hi, hhi, lo, hlo, bs, hbs, rfl⟩ := h
    obtain ⟨hhi, hdigit⟩ := digit_value hhi
    obtain ⟨hlo, hdigit'⟩ := digit_value hlo
    obtain ⟨hjoin, hjoin'⟩ := halves_join hhi hlo
    have hrest : rest.length % 2 = 0 := by
      simp only [List.length_cons] at hlen
      omega
    rw [encode_cons, hjoin, hjoin', hdigit, hdigit', ih hrest hbs, List.map_cons, List.map_cons]
  | case2 s hs =>
    rcases s with - | ⟨a, - | ⟨b, rest⟩⟩
    · obtain rfl := Option.some.inj h
      rfl
    · simp only [List.length_cons, List.length_nil] at hlen
      omega
    · exact (hs a b rest rfl).elim

theorem mem_encode {bs : List UInt8} {c : UInt8} (h : c ∈ encode bs) : c ∈ digits := by
  obtain ⟨b, -, hc⟩ := List.mem_flatMap.mp h
  rcases List.mem_cons.mp hc with rfl | hc
  · exact (digit_mem b).1
  · rw [List.mem_singleton.mp hc]
    exact (digit_mem b).2

end Hex
