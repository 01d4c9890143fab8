/-
Lando/Rfc4648.lean

Base64 of RFC 4648, section 4, and a reference decoder.

Three bytes are four digits of six bits.  A last quantum of one or two bytes is
filled up with zero bits to two or three digits, and these with `=` to four.
The decoder wants the padding, and wants the bits zero that it stands for:

    decode (encode bs) = some bs.
-/
import Mathlib.Data.List.Basic
import Mathlib.Data.UInt

namespace Rfc4648

/-- The digit of a number below 64. -/
def digit (n : ℕ) : UInt8 :=
  if n < 26 then .ofNat (0x41 + n)
  else if n < 52 then .ofNat (0x61 + (n - 26))
  else if n < 62 then .ofNat (0x30 + (n - 52))
  else if n = 62 then 0x2b
  else 0x2f

/-- The value of a digit: `A`–`Z`, `a`–`z`, `0`–`9`, `+` and `/`. -/
def value (c : UInt8) : Option ℕ :=
  if 0x41 ≤ c ∧ c ≤ 0x5a then some (c.toNat - 0x41)
  else if 0x61 ≤ c ∧ c ≤ 0x7a then some (c.toNat - 0x61 + 26)
  else if 0x30 ≤ c ∧ c ≤ 0x39 then some (c.toNat - 0x30 + 52)
  else if c = 0x2b then some 62
  else if c = 0x2f then some 63
  else none

/-- `=`. -/
def pad : UInt8 := 0x3d

/-- Three bytes at a time; the last group is padded. -/
def encode : List UInt8 → List UInt8
  | [] => []
  | [a] => [digit (a.toNat / 4), digit (a.toNat % 4 * 16), pad, pad]
  | [a, b] =>
      [digit (a.toNat / 4), digit (a.toNat % 4 * 16 + b.toNat / 16), digit (b.toNat % 16 * 4), pad]
  | a :: b :: c :: rest =>
      [digit (a.toNat / 4), digit (a.toNat % 4 * 16 + b.toNat / 16),
        digit (b.toNat % 16 * 4 + c.toNat / 64), digit (c.toNat % 64)] ++ encode rest

/-- The bytes of four digits. -/
def bytes (w x y z : ℕ) : List UInt8 :=
  [.ofNat (w * 4 + x / 16), .ofNat (x % 16 * 16 + y / 4), .ofNat (y % 4 * 64 + z)]

/-- Four digits at a time; what the padding hides has to be zero. -/
def decode : List UInt8 → Option (List UInt8)
  | [] => some []
  | c₀ :: c₁ :: c₂ :: c₃ :: rest => do
      let w ← value c₀
      let x ← value c₁
      if c₃ = pad ∧ rest = [] then
        -- the last quantum; what the padding stands for is zero
        if c₂ = pad then if x % 16 = 0 then some ((bytes w x 0 0).take 1) else none
        else do
          let y ← value c₂
          if y % 4 = 0 then some ((bytes w x y 0).take 2) else none
      else do
        let y ← value c₂
        let z ← value c₃
        return bytes w x y z ++ (← decode rest)
  | _ => none

theorem value_digit {n : ℕ} (h : n < 64) : value (digit n) = some n := by
  have table : ∀ n : Fin 64, value (digit n.val) = some n.val := by decide +kernel
  exact table ⟨n, h⟩

theorem digit_ne_pad {n : ℕ} (h : n < 64) : digit n ≠ pad := by
  have table : ∀ n : Fin 64, digit n.val ≠ pad := by decide +kernel
  exact table ⟨n, h⟩

theorem mem_encode {bs : List UInt8} {c : UInt8} (h : c ∈ encode bs) :
    c = pad ∨ ∃ n < 64, c = digit n := by
  induction bs using encode.induct with
  | case1 => cases h
  | case2 a =>
    have := a.toNat_lt
    simp only [encode, List.mem_cons, List.not_mem_nil, or_false] at h
    rcases h with h | h | h | h
    · exact .inr ⟨_, by omega, h⟩
    · exact .inr ⟨_, by omega, h⟩
    · exact .inl h
    · exact .inl h
  | case3 a b =>
    have := a.toNat_lt
    have := b.toNat_lt
    simp only [encode, List.mem_cons, List.not_mem_nil, or_false] at h
    rcases h with h | h | h | h
    · exact .inr ⟨_, by omega, h⟩
    · exact .inr ⟨_, by omega, h⟩
    · exact .inr ⟨_, by omega, h⟩
    · exact .inl h
  | case4 a b c rest ih =>
    have := a.toNat_lt
    have := b.toNat_lt
    have := c.toNat_lt
    simp only [encode, List.mem_append, List.mem_cons, List.not_mem_nil, or_false] at h
    rcases h with (h | h | h | h) | h
    · exact .inr ⟨_, by omega, h⟩
    · exact .inr ⟨_, by omega, h⟩
    · exact .inr ⟨_, by omega, h⟩
    · exact .inr ⟨_, by omega, h⟩
    · exact ih h

/-- The digits of three bytes give them back. -/
theorem bytes_digits (a b c : UInt8) :
    bytes (a.toNat / 4) (a.toNat % 4 * 16 + b.toNat / 16) (b.toNat % 16 * 4 + c.toNat / 64)
      (c.toNat % 64) = [a, b, c] := by
  have ha : a.toNat / 4 * 4 + (a.toNat % 4 * 16 + b.toNat / 16) / 16 = a.toNat := by
    have := b.toNat_lt
    omega
  have hb : (a.toNat % 4 * 16 + b.toNat / 16) % 16 * 16 +
      (b.toNat % 16 * 4 + c.toNat / 64) / 4 = b.toNat := by
    have := b.toNat_lt
    have := c.toNat_lt
    omega
  have hc : (b.toNat % 16 * 4 + c.toNat / 64) % 4 * 64 + c.toNat % 64 = c.toNat := by
    have := c.toNat_lt
    omega
  simp only [bytes, ha, hb, hc, UInt8.ofNat_toNat]

/-- **What is encoded is decoded.** -/
theorem decode_encode (bs : List UInt8) : decode (encode bs) = some bs := by
  induction bs using encode.induct with
  | case1 => rfl
  | case2 a =>
    have ha := a.toNat_lt
    have hbytes := bytes_digits a 0 0
    simp only [UInt8.toNat_zero, Nat.zero_div, Nat.zero_mod, Nat.zero_mul, Nat.add_zero] at hbytes
    rw [encode, decode, value_digit (by omega), value_digit (by omega)]
    simp only [Option.bind_eq_bind, Option.bind_some, and_self, if_true, hbytes]
    rw [if_pos (by omega)]
    rfl
  | case3 a b =>
    have ha := a.toNat_lt
    have hb := b.toNat_lt
    have hbytes := bytes_digits a b 0
    simp only [UInt8.toNat_zero, Nat.zero_div, Nat.zero_mod, Nat.add_zero] at hbytes
    rw [encode, decode, value_digit (by omega), value_digit (by omega)]
    simp only [Option.bind_eq_bind, Option.bind_some, and_self, if_true,
      if_neg (digit_ne_pad (show b.toNat % 16 * 4 < 64 by omega)),
      value_digit (show b.toNat % 16 * 4 < 64 by omega), hbytes]
    rw [if_pos (by omega)]
    rfl
  | case4 a b c rest ih =>
    have ha := a.toNat_lt
    have hb := b.toNat_lt
    have hc := c.toNat_lt
    have hlast : ¬ (digit (c.toNat % 64) = pad ∧ encode rest = []) :=
      fun h => digit_ne_pad (by omega) h.1
    show decode (_ :: _ :: _ :: _ :: encode rest) = _
    rw [decode, value_digit (by omega), value_digit (by omega), value_digit (by omega),
      value_digit (by omega), ih]
    simp only [Option.bind_eq_bind, Option.bind_some, if_neg hlast, bytes_digits]
    rfl

end Rfc4648
