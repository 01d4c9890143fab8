/-
Lando/Renderers.lean

The four renderers of decimal numbers, index by index: `u64_value` of the JSON
writer, `write_usize` of HTTP/2, `decimal` of the Noise handshake and
`write_region_key` of the control requests.

Each fills a buffer from its end with one remainder by ten after the other, and
takes the digits to the front.  Here every store, copy and subtraction is one
that could be out of range (`Checked`).  As long as the buffer has a byte for
each digit none of them is:

    fillDigits buf i v = some (Decimal.fill buf i v)

and the digits are the shortest ones.  Three of the four are one function
(`renderIn`); the key of a region has no special case for zero behind the loop,
but a digit in front of it, and copies to another buffer.
-/
import Lando.Checked
import Lando.ControlRequests
import Lando.Hpack
import Lando.NoiseHandshake

namespace Lando

open Bytes Checked

/-! ### The loop and the shift -/

/-- The digits of `v`, stored in front of index `i`. -/
def fillDigits (buf : List UInt8) (i v : ℕ) : Option (List UInt8 × ℕ) :=
  if v = 0 then some (buf, i)
  else do
    let i ← minus i 1
    let buf ← store buf i (48 + .ofNat (v % 10))
    fillDigits buf i (v / 10)
termination_by v
decreasing_by omega

/-- Renders `v` into a buffer of `size` bytes, returning the used prefix. -/
def renderIn (size : ℕ) (buf : List UInt8) (v : ℕ) : Option (List UInt8) :=
  if v = 0 then do
    let buf ← store buf 0 48
    sub buf 0 1
  else do
    let (buf, i) ← fillDigits buf size v
    let buf ← copyWithin buf i size 0
    sub buf 0 (← minus size i)

/-- `u64_value`: the digits are behind the separator. -/
def Json.Writer.u64ValueIn (w : Json.Writer) (v : UInt64) :
    Option (Except Json.JsonError Json.Writer) :=
  match w.separate with
  | .error e => some (.error e)
  | .ok w => do
      let s ← renderIn 20 (List.replicate 20 0) v.toNat
      return (w.raw s).map fun w => w.withComma true

/-- `write_usize`, for the widest `usize`. -/
def H2.Writer.writeUsizeIn (v : UInt64) (buf : Vector UInt8 20) : Option (List UInt8) :=
  renderIn 20 buf.toList v.toNat

/-- `decimal`. -/
def Noise.decimalIn (v : UInt16) (buf : Vector UInt8 5) : Option (List UInt8) :=
  renderIn 5 buf.toList v.toNat

/-- The digits of a region, at the end of a buffer, and where they start. -/
def Control.regionDigitsIn (region : UInt32) (digits : List UInt8) : Option (List UInt8 × ℕ) :=
  if region = 0 then do
    let i ← minus 10 1
    let digits ← store digits i 48
    fillDigits digits i region.toNat
  else fillDigits digits 10 region.toNat

/-- `write_region_key`. -/
def Control.writeRegionKeyIn (region : UInt32) (out : Vector UInt8 16) : Option (List UInt8) := do
  let (digits, i) ← Control.regionDigitsIn region (List.replicate 10 0)
  let len ← minus 10 i
  let out ← copyFrom out.toList 0 len (← sub digits i digits.length)
  let out ← copyFrom out len (len + 3) "-v4".toUTF8.toList
  sub out 0 (len + 3)

/-! ### Nothing is out of range -/

theorem fillDigits_eq {buf : List UInt8} {i v : ℕ} (hroom : v = 0 ∨ (Decimal.ascii v).length ≤ i)
    (hi : i ≤ buf.length) : fillDigits buf i v = some (Decimal.fill buf i v) := by
  induction v using Nat.strongRecOn generalizing buf i with
  | _ v ih =>
    rw [fillDigits, Decimal.fill]
    by_cases hzero : v = 0
    · rw [if_pos hzero, if_pos hzero]
    · have hpos := Decimal.length_ascii_pos v
      have hlen := hroom.resolve_left hzero
      -- what is left has a digit less, or none
      have hrest : v / 10 = 0 ∨ (Decimal.ascii (v / 10)).length ≤ i - 1 := by
        rcases Nat.lt_or_ge v 10 with hlt | hge
        · exact .inl (Nat.div_eq_of_lt hlt)
        · rw [Decimal.ascii_of_ge hge, List.length_append, List.length_singleton] at hlen
          exact .inr (by omega)
      have hstore : store buf (i - 1) (48 + .ofNat (v % 10)) =
          some (buf.set (i - 1) (48 + .ofNat (v % 10))) := if_pos (by omega)
      rw [if_neg hzero, if_neg hzero, minus_eq (by omega), Option.bind_eq_bind, Option.bind_some,
        hstore, Option.bind_eq_bind, Option.bind_some]
      exact ih (v / 10) (by omega) hrest (by rw [List.length_set]; omega)

/-- The loop ends with the notation in front of where it started. -/
theorem fillDigits_ascii {buf : List UInt8} {i v : ℕ} (hv : 0 < v)
    (hroom : (Decimal.ascii v).length ≤ i) (hi : i ≤ buf.length) :
    fillDigits buf i v = some (blit buf (i - (Decimal.ascii v).length) (Decimal.ascii v),
      i - (Decimal.ascii v).length) := by
  rw [fillDigits_eq (.inr hroom) hi, Decimal.fill_eq hv hroom hi]

/-- **A buffer with room for the largest number renders every number.** -/
theorem renderIn_eq {size v : ℕ} {buf : List UInt8} (hsize : 0 < size) (hbuf : buf.length = size)
    (h : v < 10 ^ size) : renderIn size buf v = some (Decimal.ascii v) := by
  have hroom := Decimal.length_ascii_le hsize h
  unfold renderIn
  rcases Nat.eq_zero_or_pos v with rfl | hpos
  · have hlen : (blit buf 0 [(48 : UInt8)]).length = buf.length :=
      length_blit (by rw [List.length_singleton]; omega)
    rw [if_pos rfl, store_eq (by omega), Option.bind_eq_bind, Option.bind_some,
      sub_eq (Nat.zero_le _) (by omega), Decimal.ascii_of_lt (by decide),
      slice_blit_self (by rfl) (by omega)]
    rfl
  · have hfill := fillDigits_ascii hpos hroom (Nat.le_of_eq hbuf.symm)
    have hlen : (blit buf (size - (Decimal.ascii v).length) (Decimal.ascii v)).length =
        buf.length := length_blit (by omega)
    have hend : size = size - (Decimal.ascii v).length + (Decimal.ascii v).length := by omega
    have hshift : (blit (blit buf (size - (Decimal.ascii v).length) (Decimal.ascii v)) 0
        (Decimal.ascii v)).length = buf.length := by
      rw [length_blit (by omega), hlen]
    rw [if_neg (by omega), hfill]
    simp only [Option.bind_eq_bind, Option.bind_some]
    rw [copyWithin_front (by omega) (by omega), Option.bind_some,
      slice_blit_self hend (by omega), minus_eq (by omega), Option.bind_some,
      sub_eq (Nat.zero_le _) (by omega), Nat.sub_sub_self hroom,
      slice_blit_self (Nat.zero_add _).symm (by omega)]

/-! ### The four renderers -/

theorem Json.Writer.u64ValueIn_eq (w : Json.Writer) (v : UInt64) :
    w.u64ValueIn v = some (w.u64Value v) := by
  have hlt : v.toNat < 10 ^ 20 := Nat.lt_trans v.toNat_lt (by decide)
  unfold u64ValueIn u64Value
  rw [renderIn_eq (by decide) List.length_replicate hlt, Decimal.render_eq (by decide) hlt]
  cases w.separate with
  | error e => rfl
  | ok w =>
    show some ((w.raw (Decimal.ascii v.toNat)).map fun w => w.withComma true) =
      some (w.raw (Decimal.ascii v.toNat) >>= fun w => pure (w.withComma true))
    cases w.raw (Decimal.ascii v.toNat) <;> rfl

theorem H2.Writer.writeUsizeIn_eq (v : UInt64) (buf : Vector UInt8 20) :
    writeUsizeIn v buf = some (writeUsize v) := by
  have hlt : v.toNat < 10 ^ 20 := Nat.lt_trans v.toNat_lt (by decide)
  rw [writeUsizeIn, renderIn_eq (by decide) Vector.length_toList hlt, H2.writeUsize_eq]

theorem Noise.decimalIn_eq (v : UInt16) (buf : Vector UInt8 5) :
    decimalIn v buf = some (decimal v) := by
  have hlt : v.toNat < 10 ^ 5 := Nat.lt_trans v.toNat_lt (by decide)
  rw [decimalIn, renderIn_eq (by decide) Vector.length_toList hlt, decimal_eq]

theorem Control.regionDigitsIn_eq (region : UInt32) {digits : List UInt8}
    (hlen : digits.length = 10) :
    Control.regionDigitsIn region digits = some (regionDigits region digits) := by
  have hten : (Decimal.ascii region.toNat).length ≤ 10 :=
    Decimal.length_ascii_le (by decide) (Nat.lt_trans region.toNat_lt (by decide))
  unfold Control.regionDigitsIn regionDigits
  by_cases h : region = 0
  · have hstore : store digits 9 48 = some (digits.set 9 48) := if_pos (by omega)
    have hnine : 9 ≤ (digits.set 9 48).length := by
      rw [List.length_set]
      omega
    rw [if_pos h, if_pos h, minus_eq (by decide), Option.bind_eq_bind, Option.bind_some]
    show (store digits 9 48 >>= fun digits => fillDigits digits 9 region.toNat) = _
    rw [hstore, Option.bind_eq_bind, Option.bind_some, fillDigits_eq (.inl ?_) hnine]
    rw [h]
    rfl
  · rw [if_neg h, if_neg h, fillDigits_eq (.inr hten) (Nat.le_of_eq hlen.symm)]

theorem Control.writeRegionKeyIn_eq (region : UInt32) (out : Vector UInt8 16) :
    Control.writeRegionKeyIn region out =
      some (Decimal.ascii region.toNat ++ "-v4".toUTF8.toList) := by
  have hlen : (List.replicate 10 (0 : UInt8)).length = 10 := List.length_replicate
  have hten : (Decimal.ascii region.toNat).length ≤ 10 :=
    Decimal.length_ascii_le (by decide) (Nat.lt_trans region.toNat_lt (by decide))
  have hout : out.toList.length = 16 := Vector.length_toList
  have hsuffix : ("-v4".toUTF8.toList).length = 3 := by decide +kernel
  have hend : 10 = 10 - (Decimal.ascii region.toNat).length + (Decimal.ascii region.toNat).length :=
    by omega
  have hdigits : (blit (List.replicate 10 0) (10 - (Decimal.ascii region.toNat).length)
      (Decimal.ascii region.toNat)).length = 10 := by
    rw [length_blit (by omega), hlen]
  have hcopy : (blit out.toList 0 (Decimal.ascii region.toNat)).length = 16 := by
    rw [length_blit (by omega), hout]
  have hall : (blit out.toList 0 (Decimal.ascii region.toNat ++ "-v4".toUTF8.toList)).length = 16 :=
    by rw [length_blit (by rw [List.length_append]; omega), hout]
  have hbehind : blit (blit out.toList 0 (Decimal.ascii region.toNat))
      (0 + (Decimal.ascii region.toNat).length) "-v4".toUTF8.toList =
      blit out.toList 0 (Decimal.ascii region.toNat ++ "-v4".toUTF8.toList) :=
    blit_blit_behind (by omega)
  rw [Nat.zero_add] at hbehind
  unfold Control.writeRegionKeyIn
  rw [regionDigitsIn_eq region hlen, Hostinfo.regionDigits_eq region hlen]
  simp only [Option.bind_eq_bind, Option.bind_some]
  rw [minus_eq (by omega), Option.bind_some, hdigits, sub_eq (by omega) (by omega),
    Option.bind_some, slice_blit_self hend (by omega), Nat.sub_sub_self hten,
    copyFrom_eq (Nat.zero_add _).symm (by omega), Option.bind_some,
    copyFrom_eq (by rw [hsuffix]) (by omega), Option.bind_some, hbehind,
    sub_eq (Nat.zero_le _) (by omega),
    slice_blit_self (by rw [List.length_append, hsuffix, Nat.zero_add]) (by omega)]

/-- **Four renderers, one notation.**  For every number of its type, and whatever is in
the buffer that it is handed, each of them has nothing out of range, and renders the
shortest decimal digits of the number: the JSON writer behind its separator, and
the key of a region in front of its `-v4`. -/
theorem renderers_shortest :
    (∀ (w : Json.Writer) (v : UInt64), ∃ digits,
      w.u64ValueIn v = some (w.put (w.separator ++ digits) true) ∧
      Decimal.IsShortest digits v.toNat) ∧
    (∀ (v : UInt64) (buf : Vector UInt8 20), ∃ digits,
      H2.Writer.writeUsizeIn v buf = some digits ∧ Decimal.IsShortest digits v.toNat) ∧
    (∀ (v : UInt16) (buf : Vector UInt8 5), ∃ digits,
      Noise.decimalIn v buf = some digits ∧ Decimal.IsShortest digits v.toNat) ∧
    ∀ (region : UInt32) (out : Vector UInt8 16), ∃ digits,
      Control.writeRegionKeyIn region out = some (digits ++ "-v4".toUTF8.toList) ∧
      Decimal.IsShortest digits region.toNat := by
  refine ⟨fun w v => ⟨_, ?_, Decimal.ascii_isShortest _⟩,
    fun v buf => ⟨_, ?_, Decimal.ascii_isShortest _⟩,
    fun v buf => ⟨_, ?_, Decimal.ascii_isShortest _⟩,
    fun region out => ⟨_, Control.writeRegionKeyIn_eq region out, Decimal.ascii_isShortest _⟩⟩
  · rw [Json.Writer.u64ValueIn_eq, Json.Writer.u64Value_eq, Json.Writer.encode_ofNat]
  · rw [H2.Writer.writeUsizeIn_eq, H2.writeUsize_eq]
  · rw [Noise.decimalIn_eq, Noise.decimal_eq]

end Lando
