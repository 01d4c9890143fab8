/-
Lando/Decimal.lean

Decimal notation, and the loop that writes it.

`ascii n` is the standard notation of `n` (core's `Nat.toDigits`), one byte
per digit.  A renderer without allocation fills a buffer from the right, one
remainder by ten at a time, and shifts the digits to the front:

    fill buf i v = (blit buf (i - |ascii v|) (ascii v), i - |ascii v|)

holds as long as there is room, so `render size v = ascii v` for every `v`
that has at most `size` digits.  A parser reads the number back (`parse_ascii`),
and no digits that it reads as the same number are fewer.
-/
import Mathlib.Data.List.Basic
import Lando.Bytes

namespace Decimal

open Bytes

/-- The decimal notation of `n` in ASCII. -/
def ascii (n : ℕ) : List UInt8 := (Nat.toDigits 10 n).map fun c => .ofNat c.toNat

/-- The digits of `v`, written in front of index `i`. -/
def fill (buf : List UInt8) (i v : ℕ) : List UInt8 × ℕ :=
  if v = 0 then (buf, i)
  else fill (buf.set (i - 1) (48 + .ofNat (v % 10))) (i - 1) (v / 10)
termination_by v
decreasing_by omega

/-- Renders `v` into a buffer of `size` bytes, returning the used prefix. -/
def render (size v : ℕ) : List UInt8 :=
  let buf := List.replicate size 0
  if v = 0 then (buf.set 0 48).take 1
  else
    let (buf, i) := fill buf size v
    (blit buf 0 (slice buf i size)).take (size - i)

theorem ofNat_digitChar {d : ℕ} (h : d < 10) :
    UInt8.ofNat d.digitChar.toNat = 48 + .ofNat d := by
  rw [Nat.toNat_digitChar_of_lt_ten h, UInt8.ofNat_add]
  rfl

theorem ascii_of_lt {n : ℕ} (h : n < 10) : ascii n = [48 + .ofNat n] := by
  rw [ascii, Nat.toDigits_of_lt_base h, List.map_singleton, ofNat_digitChar h]

theorem ascii_of_ge {n : ℕ} (h : 10 ≤ n) :
    ascii n = ascii (n / 10) ++ [48 + .ofNat (n % 10)] := by
  have hlt : n % 10 < 10 := Nat.mod_lt n (by decide)
  rw [ascii, Nat.toDigits_of_base_le (by decide) h, List.map_append, List.map_singleton,
    ofNat_digitChar hlt, ascii]

theorem length_ascii_pos (n : ℕ) : 0 < (ascii n).length := by
  rw [ascii, List.length_map]
  exact Nat.length_toDigits_pos

theorem length_ascii_le {n k : ℕ} (hk : 0 < k) (h : n < 10 ^ k) : (ascii n).length ≤ k := by
  rw [ascii, List.length_map]
  exact (Nat.length_toDigits_le_iff (by decide) hk).mpr h

/-- A write right in front of another one is one write. -/
theorem blit_blit {buf s t : List UInt8} {off : ℕ} (h : off + s.length ≤ buf.length) :
    blit (blit buf (off + s.length) t) off s = blit buf off (s ++ t) := by
  have htake : (buf.take (off + s.length)).length = off + s.length := by
    rw [List.length_take]
    omega
  have hfront : (blit buf (off + s.length) t).take off = buf.take off := by
    rw [blit, List.append_assoc, List.take_append_of_le_length (by omega), List.take_take,
      Nat.min_eq_left (by omega)]
  have hback : (blit buf (off + s.length) t).drop (off + s.length) =
      t ++ buf.drop (off + s.length + t.length) := by
    rw [blit, List.append_assoc, List.drop_left' htake]
  rw [blit, hfront, hback, blit, List.length_append, ← Nat.add_assoc]
  simp only [List.append_assoc]

/-- **The loop writes the notation.** -/
theorem fill_eq {buf : List UInt8} {i v : ℕ} (hv : 0 < v) (hroom : (ascii v).length ≤ i)
    (hi : i ≤ buf.length) :
    fill buf i v = (blit buf (i - (ascii v).length) (ascii v), i - (ascii v).length) := by
  induction v using Nat.strongRecOn generalizing buf i with
  | _ v ih =>
    have hpos := length_ascii_pos v
    have hset : buf.set (i - 1) (48 + .ofNat (v % 10)) =
        blit buf (i - 1) [48 + .ofNat (v % 10)] := set_eq_blit (by omega) _
    rw [fill, if_neg (by omega)]
    rcases Nat.lt_or_ge v 10 with hlt | hge
    · -- the last digit: the loop stops behind it
      rw [ascii_of_lt hlt, Nat.div_eq_of_lt hlt, fill, if_pos rfl, hset, Nat.mod_eq_of_lt hlt]
      rfl
    · have hlen : (ascii v).length = (ascii (v / 10)).length + 1 := by
        rw [ascii_of_ge hge, List.length_append, List.length_singleton]
      have hoff : i - 1 = i - (ascii v).length + (ascii (v / 10)).length := by omega
      rw [ih (v / 10) (by omega) (by omega) (by omega) (by rw [List.length_set]; omega), hset]
      have hstart : i - 1 - (ascii (v / 10)).length = i - (ascii v).length := by omega
      rw [hstart, hoff, blit_blit (by omega), ← ascii_of_ge hge]

/-- **A buffer that holds the digits holds the notation.** -/
theorem render_eq {size v : ℕ} (hsize : 0 < size) (h : v < 10 ^ size) :
    render size v = ascii v := by
  have hroom := length_ascii_le hsize h
  unfold render
  rcases Nat.eq_zero_or_pos v with rfl | hpos
  · obtain ⟨k, rfl⟩ : ∃ k, size = k + 1 := ⟨size - 1, by omega⟩
    rw [if_pos rfl, ascii_of_lt (by decide)]
    rfl
  · have hlen : (List.replicate size (0 : UInt8)).length = size := List.length_replicate
    have hend : size = size - (ascii v).length + (ascii v).length := by omega
    rw [if_neg (by omega), fill_eq hpos hroom (Nat.le_of_eq hlen.symm)]
    simp only
    rw [slice_blit_self hend (Nat.le_of_eq hlen.symm), Nat.sub_sub_self hroom,
      take_blit (Nat.zero_add _).symm (Nat.zero_le _), List.take_zero, List.nil_append]

/-! ### Reading -/

/-- The value of a digit. -/
def value (c : UInt8) : Option ℕ := if 0x30 ≤ c ∧ c ≤ 0x39 then some (c.toNat - 0x30) else none

/-- The number with one digit more. -/
def shift (n : ℕ) (c : UInt8) : Option ℕ := (value c).map fun d => 10 * n + d

/-- The number that digits stand for, if there is one at least. -/
def parse (ds : List UInt8) : Option ℕ := if ds = [] then none else ds.foldlM shift 0

/-- The digits stand for `n`, do not start with a zero that could be left out, and no
others for `n` are fewer. -/
structure IsShortest (ds : List UInt8) (n : ℕ) : Prop where
  parses : parse ds = some n
  no_zero : ds.head? = some 0x30 → ds = [0x30]
  least : ∀ ds', parse ds' = some n → ds.length ≤ ds'.length

theorem shift_digit (n : ℕ) {d : ℕ} (h : d < 10) : shift n (48 + .ofNat d) = some (10 * n + d) := by
  have table : ∀ d : Fin 10, value (48 + .ofNat d.val) = some d.val := by decide +kernel
  have hvalue : value (48 + .ofNat d) = some d := table ⟨d, h⟩
  rw [shift, hvalue]
  rfl

theorem foldlM_ascii (n : ℕ) : (ascii n).foldlM shift 0 = some n := by
  induction n using Nat.strongRecOn with
  | _ n ih =>
    rcases Nat.lt_or_ge n 10 with hlt | hge
    · rw [ascii_of_lt hlt, List.foldlM_cons, shift_digit 0 hlt, Nat.mul_zero, Nat.zero_add]
      rfl
    · have hlast : n % 10 < 10 := Nat.mod_lt n (by decide)
      rw [ascii_of_ge hge, List.foldlM_append, ih (n / 10) (by omega), Option.bind_eq_bind,
        Option.bind_some, List.foldlM_cons, shift_digit _ hlast, Nat.div_add_mod]
      rfl

theorem parse_ascii (n : ℕ) : parse (ascii n) = some n := by
  rw [parse, if_neg (List.ne_nil_of_length_pos (length_ascii_pos n)), foldlM_ascii]

/-- The first digit is that of the number without its last one. -/
theorem head?_ascii {n : ℕ} (h : (ascii n).head? = some 48) : n = 0 := by
  induction n using Nat.strongRecOn with
  | _ n ih =>
    rcases Nat.lt_or_ge n 10 with hlt | hge
    · rw [ascii_of_lt hlt, List.head?_cons] at h
      have table : ∀ d : Fin 10, 48 + UInt8.ofNat d.val = 48 → d.val = 0 := by decide +kernel
      exact table ⟨n, hlt⟩ (Option.some.inj h)
    · have hne : ascii (n / 10) ≠ [] := List.ne_nil_of_length_pos (length_ascii_pos _)
      rw [ascii_of_ge hge, List.head?_append_of_ne_nil _ hne] at h
      have hzero := ih (n / 10) (by omega) h
      omega

/-- Few digits stand for small numbers. -/
theorem lt_of_foldlM {ds : List UInt8} {m n : ℕ} (h : ds.foldlM shift m = some n) :
    n < (m + 1) * 10 ^ ds.length := by
  induction ds generalizing m with
  | nil =>
    obtain rfl := Option.some.inj h
    rw [List.length_nil, pow_zero]
    omega
  | cons c ds ih =>
    rw [List.foldlM_cons, Option.bind_eq_bind, Option.bind_eq_some_iff] at h
    obtain ⟨k, hk, h⟩ := h
    obtain ⟨d, hd, rfl⟩ := Option.map_eq_some_iff.mp hk
    have hdigit : d < 10 := by
      unfold value at hd
      split_ifs at hd with hc
      obtain rfl := Option.some.inj hd
      have hle : c.toNat ≤ 0x39 := hc.2
      omega
    calc n < (10 * m + d + 1) * 10 ^ ds.length := ih h
      _ ≤ ((m + 1) * 10) * 10 ^ ds.length := Nat.mul_le_mul_right _ (by omega)
      _ = (m + 1) * 10 ^ (c :: ds).length := by
        rw [List.length_cons, pow_succ', Nat.mul_assoc]

/-- **The notation is the shortest.** -/
theorem ascii_isShortest (n : ℕ) : IsShortest (ascii n) n where
  parses := parse_ascii n
  no_zero h := by
    rw [head?_ascii h, ascii_of_lt (by decide)]
    rfl
  least ds' h := by
    unfold parse at h
    split_ifs at h with hnil
    have hpos : 0 < ds'.length := List.length_pos_iff.mpr hnil
    have hlt := lt_of_foldlM h
    rw [Nat.zero_add, Nat.one_mul] at hlt
    exact length_ascii_le hpos hlt

end Decimal
