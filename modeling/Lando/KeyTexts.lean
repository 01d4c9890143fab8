/-
Lando/KeyTexts.lean

Texts of public keys, of all three types (`key.rs`).

A text is accepted by one type at most: no prefix is the front of another one.
Behind its prefix a type accepts the 64 digits of a key, in either case, and
writes them in lower case:

    parse (write k) = k
    write (parse s) = s, with the digits in lower case

`writeKeyInto` has the stores of `write` one by one.  None is out of range, and
together they are `writeKey`.
-/
import Lando.Checked
import Lando.Keys

namespace Lando

open Bytes Checked

/-! ### The loop over the bytes -/

/-- Two stores for each byte, from index `o` on. -/
def storeHex : List UInt8 → List UInt8 → ℕ → Option (List UInt8)
  | [], out, _ => some out
  | b :: bs, out, o => do
      let out ← store out o (← load Hex.digits (b >>> 4).toNat)
      let out ← store out (o + 1) (← load Hex.digits (b &&& 0xf).toNat)
      storeHex bs out (o + 2)

/-- `write`, with its stores. -/
def writeKeyInto (tag : List UInt8) (k : Key) (out : List UInt8) :
    Option (Except KeyError (ℕ × List UInt8)) :=
  let total := tag.length + 32 * 2
  if out.length < total then some (.error .shortBuffer)
  else do
    let out ← copyFrom out 0 tag.length tag
    let out ← storeHex k.toList out tag.length
    return .ok (total, out)

theorem load_digits (b : UInt8) :
    load Hex.digits (b >>> 4).toNat = some (Hex.digit (b >>> 4)) ∧
      load Hex.digits (b &&& 0xf).toNat = some (Hex.digit (b &&& 0xf)) := by
  have hlen : ∀ b : UInt8, (b >>> 4).toNat < Hex.digits.length ∧
      (b &&& 0xf).toNat < Hex.digits.length := by
    apply Hex.forall_byte
    decide +kernel
  exact ⟨load_eq (hlen b).1 0, load_eq (hlen b).2 0⟩

theorem storeHex_eq (bs : List UInt8) {out : List UInt8} {o : ℕ}
    (h : o + 2 * bs.length ≤ out.length) :
    storeHex bs out o = some (blit out o (Hex.encode bs)) := by
  induction bs generalizing out o with
  | nil =>
    have hnil : Hex.encode [] = [] := rfl
    rw [storeHex, hnil, blit, List.append_nil, List.length_nil, Nat.add_zero,
      List.take_append_drop]
  | cons b bs ih =>
    rw [List.length_cons] at h
    obtain ⟨hhi, hlo⟩ := load_digits b
    have hone : store out o (Hex.digit (b >>> 4)) = some (blit out o [Hex.digit (b >>> 4)]) :=
      store_eq (by omega) _
    have htwo : store (blit out o [Hex.digit (b >>> 4)]) (o + 1) (Hex.digit (b &&& 0xf)) =
        some (blit out o [Hex.digit (b >>> 4), Hex.digit (b &&& 0xf)]) :=
      store_behind (by rfl) (by omega) _
    have hpair : ([Hex.digit (b >>> 4), Hex.digit (b &&& 0xf)] : List UInt8).length = 2 := rfl
    have hroom : (blit out o [Hex.digit (b >>> 4), Hex.digit (b &&& 0xf)]).length = out.length :=
      length_blit (by rw [hpair]; omega)
    simp only [storeHex, hhi, hlo, Option.bind_eq_bind, Option.bind_some, hone, htwo]
    rw [ih (by omega), ← hpair, blit_blit_behind (by rw [hpair]; omega)]
    rfl

/-- No store is out of range. -/
theorem writeKeyInto_eq (tag : List UInt8) (k : Key) (out : List UInt8) :
    writeKeyInto tag k out = some (writeKey tag k out) := by
  have hk : k.toList.length = 32 := Vector.length_toList
  unfold writeKeyInto writeKey
  simp only
  by_cases h : out.length < tag.length + 32 * 2
  · rw [if_pos h, if_pos h]
  · have hsize : (blit out 0 tag).length = out.length := length_blit (by omega)
    rw [if_neg h, if_neg h, copyFrom_eq (Nat.zero_add _).symm (by omega)]
    show (storeHex k.toList (blit out 0 tag) tag.length >>= _) = _
    rw [storeHex_eq _ (by omega)]
    rfl

/-! ### The three types -/

/-- The three types of public key. -/
inductive KeyType
  | machine
  | node
  | disco
  deriving DecidableEq

namespace KeyType

/-- `PREFIX`. -/
def tag : KeyType → List UInt8
  | machine => "mkey:".toUTF8.toList
  | node => "nodekey:".toUTF8.toList
  | disco => "discokey:".toUTF8.toList

/-- `parse` of the public key of this type. -/
def parse : KeyType → List UInt8 → Except KeyError Key
  | machine, s => (·.bytes) <$> MachinePublic.parse s
  | node, s => (·.bytes) <$> NodePublic.parse s
  | disco, s => (·.bytes) <$> DiscoPublic.parse s

/-- `write` of the public key of this type. -/
def write : KeyType → Key → List UInt8 → Except KeyError (ℕ × List UInt8)
  | machine, k, out => (MachinePublic.mk k).write out
  | node, k, out => (NodePublic.mk k).write out
  | disco, k, out => (DiscoPublic.mk k).write out

/-- The length of a text. -/
def textLen (t : KeyType) : ℕ := t.tag.length + 64

theorem parse_eq (t : KeyType) (s : List UInt8) : t.parse s = parseKey t.tag s := by
  cases t with
  | machine =>
    show (fun k : MachinePublic => k.bytes) <$> MachinePublic.mk <$> parseKey machine.tag s = _
    cases parseKey machine.tag s <;> rfl
  | node =>
    show (fun k : NodePublic => k.bytes) <$> NodePublic.mk <$> parseKey node.tag s = _
    cases parseKey node.tag s <;> rfl
  | disco =>
    show (fun k : DiscoPublic => k.bytes) <$> DiscoPublic.mk <$> parseKey disco.tag s = _
    cases parseKey disco.tag s <;> rfl

theorem write_eq (t : KeyType) (k : Key) (out : List UInt8) :
    t.write k out = writeKey t.tag k out := by
  cases t <;> rfl

/-- The first byte of the prefix. -/
def initial : KeyType → UInt8
  | machine => 0x6d
  | node => 0x6e
  | disco => 0x64

theorem tag_eq_cons (t : KeyType) : ∃ rest, t.tag = t.initial :: rest := by
  cases t with
  | machine => exact ⟨"key:".toUTF8.toList, by decide +kernel⟩
  | node => exact ⟨"odekey:".toUTF8.toList, by decide +kernel⟩
  | disco => exact ⟨"iscokey:".toUTF8.toList, by decide +kernel⟩

theorem initial_injective : Function.Injective initial := by
  intro t t' h
  cases t <;> cases t' <;> first | rfl | exact absurd h (by decide)

theorem parse_of_tag {t t' : KeyType} (h : t' ≠ t) (digits : List UInt8) :
    t'.parse (t.tag ++ digits) = .error .badPrefix := by
  obtain ⟨rest, htag⟩ := t.tag_eq_cons
  obtain ⟨rest', htag'⟩ := t'.tag_eq_cons
  -- the first bytes differ already
  have hnone : t'.tag.isPrefixOf? (t.tag ++ digits) = none := by
    rw [htag, htag', List.cons_append, List.isPrefixOf?, if_neg]
    rw [beq_iff_eq]
    exact fun heq => h (initial_injective heq)
  rw [parse_eq, parseKey, hnone]

/-- Just the digits of a key are accepted. -/
theorem parse_isOk_iff (t : KeyType) (s : List UInt8) :
    (∃ k, t.parse s = .ok k) ↔
      ∃ digits, s = t.tag ++ digits ∧ digits.length = 64 ∧ ∀ c ∈ digits, Hex.IsDigit c := by
  constructor
  · rintro ⟨k, hk⟩
    rw [parse_eq] at hk
    obtain ⟨digits, hs, hlen, hdecode⟩ := parseKey_eq_ok_iff.mp hk
    exact ⟨digits, hs, hlen, (Hex.exists_decode_iff (by rw [hlen])).mp ⟨_, hdecode⟩⟩
  · rintro ⟨digits, hs, hlen, hdigits⟩
    obtain ⟨bs, hbs⟩ := (Hex.exists_decode_iff (by rw [hlen])).mpr hdigits
    have hbytes : bs.length = 32 := by rw [Hex.length_decode hbs, hlen]
    refine ⟨⟨bs.toArray, hbytes⟩, ?_⟩
    rw [parse_eq]
    exact parseKey_eq_ok_iff.mpr ⟨digits, hs, hlen, hbs⟩

/-- A text is written where there is room for it, and stands at the front then. -/
theorem write_isOk_iff (t : KeyType) (k : Key) (out : List UInt8) :
    (∃ n buf, t.write k out = .ok (n, buf)) ↔ t.textLen ≤ out.length := by
  rw [write_eq]
  by_cases hroom : t.textLen ≤ out.length
  · obtain ⟨buf, hbuf, -⟩ := writeKey_eq k hroom
    exact iff_of_true ⟨_, buf, hbuf⟩ hroom
  · have hshort : writeKey t.tag k out = .error .shortBuffer := if_pos (Nat.not_le.mp hroom)
    rw [hshort]
    exact iff_of_false (by rintro ⟨n, buf, h⟩; cases h) hroom

theorem take_write {t : KeyType} {k : Key} {out buf : List UInt8} {n : ℕ}
    (h : t.write k out = .ok (n, buf)) : buf.take n = t.tag ++ Hex.encode k.toList := by
  obtain ⟨buf', hbuf', htake⟩ := writeKey_eq k ((t.write_isOk_iff k out).mp ⟨n, buf, h⟩)
  rw [write_eq, hbuf'] at h
  obtain ⟨rfl, rfl⟩ := Prod.mk.inj (Except.ok.inj h)
  exact htake

theorem parse_write (t : KeyType) (k : Key) : t.parse (t.tag ++ Hex.encode k.toList) = .ok k := by
  rw [parse_eq]
  refine parseKey_eq_ok_iff.mpr ⟨_, rfl, ?_, Hex.decode_encode _⟩
  rw [Hex.length_encode, Vector.length_toList]

/-- What is parsed is written in lower case. -/
theorem encode_of_parse {t : KeyType} {digits : List UInt8} {k : Key}
    (h : t.parse (t.tag ++ digits) = .ok k) : Hex.encode k.toList = digits.map Hex.lower := by
  rw [parse_eq] at h
  obtain ⟨digits', heq, hlen, hdecode⟩ := parseKey_eq_ok_iff.mp h
  obtain rfl := List.append_cancel_left heq
  exact Hex.encode_decode (by rw [hlen]) hdecode

/-- **Texts of keys.**  For each type and every buffer that has room: what is written
is parsed back, is a bad prefix to the two other types, and no store is out of
range.  For every text: it is parsed just if it is the prefix and 64 hexadecimal
digits, in either case, and written again it is the same in lower case. -/
theorem key_texts (t : KeyType) :
    (∀ (k : Key) (out : List UInt8),
      writeKeyInto t.tag k out = some (t.write k out) ∧
      ((∃ n buf, t.write k out = .ok (n, buf)) ↔ t.textLen ≤ out.length) ∧
      ∀ n buf, t.write k out = .ok (n, buf) →
        t.parse (buf.take n) = .ok k ∧
        ∀ t', t' ≠ t → t'.parse (buf.take n) = .error .badPrefix) ∧
    (∀ s : List UInt8, (∃ k, t.parse s = .ok k) ↔
      ∃ digits, s = t.tag ++ digits ∧ digits.length = 64 ∧ ∀ c ∈ digits, Hex.IsDigit c) ∧
    ∀ (digits : List UInt8) (k : Key) (out : List UInt8), t.parse (t.tag ++ digits) = .ok k →
      t.textLen ≤ out.length →
      ∃ n buf, t.write k out = .ok (n, buf) ∧ buf.take n = t.tag ++ digits.map Hex.lower := by
  refine ⟨?_, t.parse_isOk_iff, ?_⟩
  · intro k out
    refine ⟨by rw [writeKeyInto_eq, write_eq], t.write_isOk_iff k out, ?_⟩
    intro n buf hbuf
    rw [take_write hbuf]
    exact ⟨t.parse_write k, fun t' ht' => parse_of_tag ht' _⟩
  · intro digits k out hparse hroom
    obtain ⟨n, buf, hbuf⟩ := (t.write_isOk_iff k out).mpr hroom
    exact ⟨n, buf, hbuf, by rw [take_write hbuf, encode_of_parse hparse]⟩

end KeyType

end Lando
