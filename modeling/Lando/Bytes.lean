/-
Lando/Bytes.lean

Byte strings: fixed-width integers in either byte order, and fixed-layout
buffers.

A buffer of fixed size is filled by writing slices at offsets (`blit`) and
read by taking slices back (`slice`, or `read` for an array of known size).
Two lemmas carry every layout argument:

    slice (blit buf off src) off (off + |src|) = src
    slice (blit buf off src) lo hi = slice buf lo hi     if disjoint.

They need the write to lie inside the buffer, and nothing else.
-/
import Mathlib.Data.List.Basic
import Mathlib.Data.UInt
import Mathlib.Tactic.Ring

namespace Bytes

/-! ### Byte order -/

/-- The `n` low bytes of `x`, least significant first. -/
def toLE : ℕ → ℕ → List UInt8
  | 0, _ => []
  | n + 1, x => UInt8.ofNat (x % 256) :: toLE n (x / 256)

/-- The number a little-endian byte string denotes. -/
def fromLE : List UInt8 → ℕ
  | [] => 0
  | b :: bs => b.toNat + 256 * fromLE bs

/-- The `n` low bytes of `x`, most significant first. -/
def toBE (n x : ℕ) : List UInt8 := (toLE n x).reverse

/-- The number a big-endian byte string denotes. -/
def fromBE (bs : List UInt8) : ℕ := fromLE bs.reverse

@[simp] theorem length_toLE (n x : ℕ) : (toLE n x).length = n := by
  induction n generalizing x with
  | zero => rfl
  | succ n ih => simp [toLE, ih]

@[simp] theorem length_toBE (n x : ℕ) : (toBE n x).length = n := by
  simp [toBE]

theorem fromLE_toLE {n x : ℕ} (h : x < 256 ^ n) : fromLE (toLE n x) = x := by
  induction n generalizing x with
  | zero => simp only [pow_zero, Nat.lt_one_iff] at h; simp [toLE, fromLE, h]
  | succ n ih =>
      have hdiv : x / 256 < 256 ^ n := by
        rw [Nat.div_lt_iff_lt_mul (by decide), ← pow_succ]
        exact h
      have hmod : x % 256 < 256 := Nat.mod_lt _ (by decide)
      simp only [toLE, fromLE, ih hdiv, UInt8.toNat_ofNat']
      omega

theorem fromBE_toBE {n x : ℕ} (h : x < 256 ^ n) : fromBE (toBE n x) = x := by
  rw [fromBE, toBE, List.reverse_reverse, fromLE_toLE h]

theorem toLE_fromLE (bs : List UInt8) : toLE bs.length (fromLE bs) = bs := by
  induction bs with
  | nil => rfl
  | cons b bs ih =>
      have hb : b.toNat < 256 := b.toNat_lt
      have hmod : (b.toNat + 256 * fromLE bs) % 256 = b.toNat := by omega
      have hdiv : (b.toNat + 256 * fromLE bs) / 256 = fromLE bs := by omega
      rw [List.length_cons, toLE, fromLE, hmod, hdiv, ih, UInt8.ofNat_toNat]

theorem toBE_fromBE (bs : List UInt8) : toBE bs.length (fromBE bs) = bs := by
  rw [toBE, fromBE, ← List.length_reverse, toLE_fromLE, List.reverse_reverse]

/-- Leading zeros do not count. -/
theorem fromLE_lt (bs : List UInt8) : fromLE bs < 256 ^ bs.length := by
  induction bs with
  | nil => exact Nat.one_pos
  | cons b bs ih =>
    have hb : b.toNat < 256 := b.toNat_lt
    rw [fromLE, List.length_cons, pow_succ]
    omega

theorem fromBE_lt (bs : List UInt8) : fromBE bs < 256 ^ bs.length := by
  rw [← List.length_reverse]
  exact fromLE_lt bs.reverse

theorem fromBE_zero_cons (bs : List UInt8) : fromBE (0 :: bs) = fromBE bs := by
  have hsnoc : ∀ xs : List UInt8, fromLE (xs ++ [0]) = fromLE xs := by
    intro xs
    induction xs with
    | nil => rfl
    | cons b bs ih => rw [List.cons_append, fromLE, ih, fromLE]
  rw [fromBE, List.reverse_cons, hsnoc, fromBE]

/-- The low bytes of a number are its bytes without the leading one. -/
theorem tail_toBE (n x : ℕ) : (toBE (n + 1) x).tail = toBE n x := by
  have hsnoc : ∀ n x, ∃ b, toLE (n + 1) x = toLE n x ++ [b] := by
    intro n
    induction n with
    | zero => exact fun x => ⟨_, rfl⟩
    | succ n ih =>
      intro x
      obtain ⟨b, hb⟩ := ih (x / 256)
      exact ⟨b, by rw [toLE, hb, toLE, List.cons_append]⟩
  obtain ⟨b, hb⟩ := hsnoc n x
  rw [toBE, hb, List.reverse_append]
  rfl

/-- Distinct numbers in range have distinct encodings. -/
theorem toLE_inj {n x y : ℕ} (hx : x < 256 ^ n) (hy : y < 256 ^ n)
    (h : toLE n x = toLE n y) : x = y := by
  rw [← fromLE_toLE hx, h, fromLE_toLE hy]

/-! ### The order of byte strings -/

theorem fromBE_cons (b : UInt8) (bs : List UInt8) :
    fromBE (b :: bs) = b.toNat * 256 ^ bs.length + fromBE bs := by
  have happend : ∀ xs : List UInt8, fromLE (xs ++ [b]) = fromLE xs + 256 ^ xs.length * b.toNat := by
    intro xs
    induction xs with
    | nil => simp [fromLE]
    | cons x xs ih =>
      rw [List.cons_append, fromLE, ih, fromLE, List.length_cons, pow_succ]
      ring
  rw [fromBE, List.reverse_cons, happend, List.length_reverse, fromBE]
  ring

/-- **Byte strings of one length are ordered as the numbers they denote**, most
significant byte first. -/
theorem lt_iff_fromBE_lt {a b : List UInt8} (h : a.length = b.length) :
    a < b ↔ fromBE a < fromBE b := by
  induction a generalizing b with
  | nil =>
    obtain rfl := List.length_eq_zero_iff.mp h.symm
    simp
  | cons x xs ih =>
    cases b with
    | nil => cases h
    | cons y ys =>
      have hlen : xs.length = ys.length := Nat.succ.inj h
      have hx := fromBE_lt xs
      have hy := fromBE_lt ys
      rw [List.cons_lt_cons_iff, ih hlen, fromBE_cons, fromBE_cons, hlen]
      rw [hlen] at hx
      rw [UInt8.lt_iff_toNat_lt, ← UInt8.toNat_inj]
      generalize 256 ^ ys.length = k at *
      rcases Nat.lt_trichotomy x.toNat y.toNat with hlt | heq | hgt
      · have hmul : (x.toNat + 1) * k ≤ y.toNat * k := Nat.mul_le_mul_right k hlt
        rw [Nat.succ_mul] at hmul
        exact iff_of_true (.inl hlt) (by omega)
      · rw [heq]
        simp
      · have hmul : (y.toNat + 1) * k ≤ x.toNat * k := Nat.mul_le_mul_right k hgt
        rw [Nat.succ_mul] at hmul
        refine iff_of_false ?_ (by omega)
        rintro (hlt | ⟨heq, -⟩) <;> omega

theorem toBE_lt_toBE_iff {n x y : ℕ} (hx : x < 256 ^ n) (hy : y < 256 ^ n) :
    toBE n x < toBE n y ↔ x < y := by
  rw [lt_iff_fromBE_lt (by rw [length_toBE, length_toBE]), fromBE_toBE hx, fromBE_toBE hy]

/-- Two fields of fixed widths are compared one after the other. -/
theorem append_lt_append_iff {a a' b b' : List UInt8} (h : a.length = a'.length) :
    a ++ b < a' ++ b' ↔ a < a' ∨ a = a' ∧ b < b' := by
  induction a generalizing a' with
  | nil =>
    obtain rfl := List.length_eq_zero_iff.mp h.symm
    simp
  | cons x xs ih =>
    cases a' with
    | nil => cases h
    | cons y ys =>
      rw [List.cons_append, List.cons_append, List.cons_lt_cons_iff, List.cons_lt_cons_iff,
        ih (Nat.succ.inj h), List.cons.injEq]
      tauto
/-! ### Fixed layouts -/

variable {α : Type*}

/-- The slice `buf[lo..hi]`. -/
def slice (buf : List α) (lo hi : ℕ) : List α := (buf.drop lo).take (hi - lo)

/-- `buf[off..off + src.len()].copy_from_slice(src)`. -/
def blit (buf : List α) (off : ℕ) (src : List α) : List α :=
  buf.take off ++ src ++ buf.drop (off + src.length)

theorem length_blit {buf src : List α} {off : ℕ} (h : off + src.length ≤ buf.length) :
    (blit buf off src).length = buf.length := by
  simp only [blit, List.length_append, List.length_take, List.length_drop]
  omega

/-- What stands in front of the end of a write. -/
theorem take_blit {buf src : List α} {off n : ℕ} (hn : n = off + src.length)
    (h : off ≤ buf.length) : (blit buf off src).take n = buf.take off ++ src := by
  have hlen : n = (buf.take off ++ src).length := by
    rw [List.length_append, List.length_take, Nat.min_eq_left h, hn]
  rw [blit, hlen, List.take_left]

/-- A write over a segment of the same length. -/
theorem blit_append_mid {a mid src rest : List α} {off : ℕ} (hoff : off = a.length)
    (hlen : src.length = mid.length) : blit (a ++ (mid ++ rest)) off src = a ++ (src ++ rest) := by
  rw [blit, hoff, List.take_left, ← List.drop_drop, List.drop_left, hlen, List.drop_left,
    List.append_assoc]

/-- A write right behind another one is one write. -/
theorem blit_blit_behind {buf x y : List α} {off : ℕ} (h : off + x.length ≤ buf.length) :
    blit (blit buf off x) (off + x.length) y = blit buf off (x ++ y) := by
  have hfront : (buf.take off ++ x).length = off + x.length := by
    rw [List.length_append, List.length_take]
    omega
  have hback : (blit buf off x).drop (off + x.length + y.length) =
      buf.drop (off + (x ++ y).length) := by
    rw [blit, ← List.drop_drop, ← hfront, List.drop_left, hfront, List.drop_drop,
      List.length_append, Nat.add_assoc]
  rw [blit, hback, take_blit rfl (by omega), blit]
  simp only [List.append_assoc]

/-- A write of one element. -/
theorem set_eq_blit {buf : List α} {i : ℕ} (h : i < buf.length) (a : α) :
    buf.set i a = blit buf i [a] := by
  rw [List.set_eq_take_append_cons_drop, if_pos h, blit, List.append_assoc]
  rfl

/-- A buffer filled from the front. -/
theorem blit_append_replicate {a src : List α} {z : α} {off m n : ℕ} (hoff : off = a.length)
    (hm : m = src.length + n) :
    blit (a ++ List.replicate m z) off src = a ++ src ++ List.replicate n z := by
  subst hoff hm
  rw [blit, List.take_left, ← List.drop_drop, List.drop_left, List.drop_replicate,
    Nat.add_sub_cancel_left]

theorem blit_replicate {src : List α} {z : α} {m n : ℕ} (hm : m = src.length + n) :
    blit (List.replicate m z) 0 src = src ++ List.replicate n z :=
  blit_append_replicate (a := []) rfl hm

theorem getElem?_slice (buf : List α) (lo hi i : ℕ) :
    (slice buf lo hi)[i]? = if i < hi - lo then buf[lo + i]? else none := by
  simp only [slice, List.getElem?_take, List.getElem?_drop]

theorem getElem?_blit {buf src : List α} {off : ℕ} (h : off + src.length ≤ buf.length)
    (i : ℕ) :
    (blit buf off src)[i]? =
      if i < off then buf[i]? else if i < off + src.length then src[i - off]? else buf[i]? := by
  have htake : (buf.take off).length = off := by
    rw [List.length_take]
    omega
  rw [blit, List.append_assoc]
  by_cases h₁ : i < off
  · rw [List.getElem?_append_left (by omega), if_pos h₁, List.getElem?_take, if_pos h₁]
  rw [List.getElem?_append_right (by omega), htake, if_neg h₁]
  by_cases h₂ : i < off + src.length
  · rw [List.getElem?_append_left (by omega), if_pos h₂]
  · rw [List.getElem?_append_right (by omega), if_neg h₂, List.getElem?_drop]
    congr 1
    omega

/-- What was written is read back. -/
theorem slice_blit_self {buf src : List α} {off hi : ℕ} (hhi : hi = off + src.length)
    (h : hi ≤ buf.length) : slice (blit buf off src) off hi = src := by
  subst hhi
  apply List.ext_getElem?
  intro i
  rw [getElem?_slice, getElem?_blit h, Nat.add_sub_cancel_left]
  by_cases hi : i < src.length
  · rw [if_pos hi, if_neg (by omega), if_pos (by omega), Nat.add_sub_cancel_left]
  · rw [if_neg hi, List.getElem?_eq_none (by omega)]

/-- A write leaves what stands in front of it alone, also when it does not fit. -/
theorem slice_blit_front {buf src : List α} {off lo hi : ℕ} (hd : hi ≤ off)
    (h : off ≤ buf.length) : slice (blit buf off src) lo hi = slice buf lo hi := by
  apply List.ext_getElem?
  intro i
  rw [getElem?_slice, getElem?_slice]
  by_cases hi' : i < hi - lo
  · have htake : lo + i < (buf.take off).length := by
      rw [List.length_take]
      omega
    rw [if_pos hi', if_pos hi', blit, List.append_assoc, List.getElem?_append_left htake,
      List.getElem?_take, if_pos (by omega)]
  · rw [if_neg hi', if_neg hi']

/-- A write leaves every disjoint slice alone. -/
theorem slice_blit_of_disjoint {buf src : List α} {off lo hi : ℕ}
    (hd : hi ≤ off ∨ off + src.length ≤ lo) (h : off + src.length ≤ buf.length) :
    slice (blit buf off src) lo hi = slice buf lo hi := by
  apply List.ext_getElem?
  intro i
  rw [getElem?_slice, getElem?_slice, getElem?_blit h]
  by_cases hi' : i < hi - lo
  · rw [if_pos hi', if_pos hi']
    by_cases h₁ : lo + i < off
    · rw [if_pos h₁]
    · rw [if_neg h₁, if_neg (by omega)]
  · rw [if_neg hi', if_neg hi']

/-- The first element survives a write that starts behind it. -/
theorem head?_blit {buf src : List α} {off : ℕ} (h₀ : 0 < off)
    (h : off + src.length ≤ buf.length) : (blit buf off src).head? = buf.head? := by
  rw [List.head?_eq_getElem?, List.head?_eq_getElem?, getElem?_blit h, if_pos h₀]

/-- What a write of `k` elements inside a buffer of `n` does, in one piece. -/
theorem blit_spec {buf src : List α} {n k : ℕ} (off : ℕ) (hb : buf.length = n)
    (hs : src.length = k) (h : off + k ≤ n) :
    (blit buf off src).length = n ∧
      slice (blit buf off src) off (off + k) = src ∧
      (∀ lo hi, hi ≤ off ∨ off + k ≤ lo → slice (blit buf off src) lo hi = slice buf lo hi) ∧
      (0 < off → (blit buf off src).head? = buf.head?) := by
  subst hb hs
  exact ⟨length_blit h, slice_blit_self rfl h, fun lo hi hd => slice_blit_of_disjoint hd h,
    fun h₀ => head?_blit h₀ h⟩

/-- A slice of a slice. -/
theorem slice_slice {buf : List α} {lo hi a b : ℕ} (h : lo + b ≤ hi) :
    slice (slice buf lo hi) a b = slice buf (lo + a) (lo + b) := by
  apply List.ext_getElem?
  intro i
  rw [getElem?_slice, getElem?_slice, getElem?_slice, Nat.add_sub_add_left]
  by_cases hi' : i < b - a
  · rw [if_pos hi', if_pos hi', if_pos (by omega), Nat.add_assoc]
  · rw [if_neg hi', if_neg hi']

/-- The middle part of a concatenation. -/
theorem slice_append_mid {a b c : List α} {lo hi : ℕ} (hlo : lo = a.length)
    (hhi : hi = lo + b.length) : slice (a ++ (b ++ c)) lo hi = b := by
  subst hlo hhi
  simp [slice]

/-! ### Chunks -/

/-- `xs.chunks(n)`: pieces of `n` elements, the last one possibly shorter. -/
def chunks (n : ℕ) (xs : List α) : List (List α) :=
  if xs = [] ∨ n = 0 then [] else xs.take n :: chunks n (xs.drop n)
termination_by xs.length
decreasing_by
  rename_i h
  rw [not_or] at h
  have hpos := List.length_pos_iff.mpr h.1
  rw [List.length_drop]
  omega

theorem chunks_nil (n : ℕ) : chunks n ([] : List α) = [] := by
  rw [chunks, if_pos (.inl rfl)]

theorem chunks_cons {n : ℕ} (hn : 0 < n) {xs : List α} (h : xs ≠ []) :
    chunks n xs = xs.take n :: chunks n (xs.drop n) := by
  rw [chunks, if_neg]
  rintro (hnil | hzero)
  · exact h hnil
  · omega

/-- Induction over the pieces of a list. -/
theorem chunks_induction {n : ℕ} (hn : 0 < n) {motive : List α → Prop} (nil : motive [])
    (step : ∀ xs, xs ≠ [] → motive (xs.drop n) → motive xs) (xs : List α) : motive xs := by
  induction hlen : xs.length using Nat.strongRecOn generalizing xs with
  | _ k ih =>
    by_cases h : xs = []
    · rw [h]
      exact nil
    · have hpos := List.length_pos_iff.mpr h
      refine step xs h (ih _ ?_ _ rfl)
      rw [List.length_drop]
      omega

theorem flatten_chunks {n : ℕ} (hn : 0 < n) (xs : List α) : (chunks n xs).flatten = xs := by
  induction xs using chunks_induction hn with
  | nil =>
    rw [chunks_nil]
    rfl
  | step xs h ih => rw [chunks_cons hn h, List.flatten_cons, ih, List.take_append_drop]

theorem chunks_of_le {n : ℕ} {xs : List α} (h : xs ≠ []) (hn : xs.length ≤ n) :
    chunks n xs = [xs] := by
  have hpos := List.length_pos_iff.mpr h
  rw [chunks_cons (by omega) h, List.take_of_length_le hn, List.drop_eq_nil_of_le hn, chunks_nil]

theorem mem_chunks {n : ℕ} (hn : 0 < n) {xs c : List α} (hc : c ∈ chunks n xs) :
    c ≠ [] ∧ c.length ≤ n := by
  induction xs using chunks_induction hn with
  | nil =>
    rw [chunks_nil] at hc
    cases hc
  | step xs h ih =>
    rw [chunks_cons hn h] at hc
    rcases List.mem_cons.mp hc with rfl | hc
    · refine ⟨?_, List.length_take_le _ _⟩
      intro hnil
      rcases List.take_eq_nil_iff.mp hnil with hzero | hnil
      · omega
      · exact h hnil
    · exact ih hc

/-! ### Arrays of known size -/

/-- `arr.copy_from_slice(&buf[off..off + n])` for an array of `n` bytes. -/
def read (n : ℕ) (buf : List UInt8) (off : ℕ) : Vector UInt8 n :=
  Vector.ofFn fun i => buf.getD (off + i) 0

/-- Reading an array back from where its bytes stand. -/
theorem read_eq {n off : ℕ} {buf : List UInt8} {v : Vector UInt8 n}
    (h : slice buf off (off + n) = v.toList) : read n buf off = v := by
  apply Vector.ext
  intro i hi
  have hi' : (slice buf off (off + n))[i]? = v.toList[i]? := by rw [h]
  rw [getElem?_slice, Nat.add_sub_cancel_left, if_pos hi] at hi'
  have hv : v.toList[i]? = some v[i] := by
    rw [List.getElem?_eq_getElem (by simpa using hi)]
    simp
  simp [read, List.getD_eq_getElem?_getD, hi', hv]

/-- Reading an array from a slice. -/
theorem read_slice {n off lo hi : ℕ} {buf : List UInt8} (h : off + n ≤ hi - lo) :
    read n (slice buf lo hi) off = read n buf (lo + off) := by
  apply Vector.ext
  intro i hi'
  simp only [read, Vector.getElem_ofFn, List.getD_eq_getElem?_getD, getElem?_slice,
    if_pos (show off + i < hi - lo by omega), Nat.add_assoc]

/-- The bytes of an array that was read. -/
theorem toList_read {n off : ℕ} {buf : List UInt8} (h : off + n ≤ buf.length) :
    (read n buf off).toList = slice buf off (off + n) := by
  have hlen : (slice buf off (off + n)).length = n := by
    rw [slice, List.length_take, List.length_drop]
    omega
  have hread : read n buf off = ⟨(slice buf off (off + n)).toArray, by simp [hlen]⟩ :=
    read_eq (by simp)
  rw [hread]
  rfl

end Bytes
