/-
Lando/Keys.lean

The wire form of public keys (`key.rs`): a prefix that names the type, then the
32 bytes in hex.

The three types come from one macro; here they are one definition with the
prefix as an argument (`parseKey`), and each type its own instance of it.
-/
import Lando.Disco
import Lando.Hex
import Lando.Utf8

namespace Lando

open Bytes

/-- `KeyError`, the errors of parsing and writing a key. -/
inductive KeyError
  /-- Not exactly 64 characters, or a digit that is none. -/
  | badHex
  | badPrefix
  | shortBuffer
  deriving DecidableEq

/-- The value of a hexadecimal digit. -/
def nibble (c : UInt8) : Except KeyError UInt8 :=
  if 0x30 ≤ c ∧ c ≤ 0x39 then .ok (c - 0x30)
  else if 0x61 ≤ c ∧ c ≤ 0x66 then .ok (c - 0x61 + 10)
  else if 0x41 ≤ c ∧ c ≤ 0x46 then .ok (c - 0x41 + 10)
  else .error .badHex

/-- The bytes of digits, two by two. -/
def unhex : List UInt8 → Except KeyError (List UInt8)
  | a :: b :: rest => do
      let hi ← nibble a
      let lo ← nibble b
      return (hi <<< 4 ||| lo) :: (← unhex rest)
  | _ => .ok []

/-- Parses bare hex with no prefix. -/
def parseHex (hex : List UInt8) : Except KeyError Key := do
  if hex.length ≠ 32 * 2 then throw .badHex
  return read 32 (← unhex hex) 0

/-- Parses the prefixed wire form. -/
def parseKey (tag s : List UInt8) : Except KeyError Key :=
  match tag.isPrefixOf? s with
  | none => .error .badPrefix
  | some hex => parseHex hex

/-- `mkey:…`. -/
def MachinePublic.parse (s : List UInt8) : Except KeyError MachinePublic :=
  MachinePublic.mk <$> parseKey "mkey:".toUTF8.toList s

/-- `nodekey:…`. -/
def NodePublic.parse (s : List UInt8) : Except KeyError NodePublic :=
  NodePublic.mk <$> parseKey "nodekey:".toUTF8.toList s

/-- `discokey:…`. -/
def DiscoPublic.parse (s : List UInt8) : Except KeyError DiscoPublic :=
  DiscoPublic.mk <$> parseKey "discokey:".toUTF8.toList s

theorem nibble_eq (c : UInt8) : nibble c = (Hex.value c).elim (.error .badHex) .ok := by
  unfold nibble Hex.value
  split_ifs <;> rfl

theorem unhex_eq (s : List UInt8) : unhex s = (Hex.decode s).elim (.error .badHex) .ok := by
  induction s using Hex.decode.induct with
  | case1 a b rest ih =>
    rw [unhex, Hex.decode, nibble_eq, nibble_eq, ih]
    cases Hex.value a
    · rfl
    cases Hex.value b
    · rfl
    cases Hex.decode rest
    · rfl
    · rfl
  | case2 s hs =>
    rw [unhex.eq_def, Hex.decode.eq_def]
    rcases s with - | ⟨a, - | ⟨b, rest⟩⟩
    · rfl
    · rfl
    · exact (hs a b rest rfl).elim

/-- A key is read just from its wire form. -/
theorem parseKey_eq_ok_iff {tag s : List UInt8} {k : Key} :
    parseKey tag s = .ok k ↔
      ∃ digits, s = tag ++ digits ∧ digits.length = 64 ∧ Hex.decode digits = some k.toList := by
  have hread : ∀ bs : List UInt8, bs.length = 32 → (read 32 bs 0).toList = bs := by
    intro bs hbs
    rw [toList_read (by omega), slice]
    simp [hbs]
  -- the digits behind the tag
  have hhex : ∀ digits, parseHex digits = .ok k ↔
      digits.length = 64 ∧ Hex.decode digits = some k.toList := by
    intro digits
    by_cases hlen : digits.length = 64
    · have hdone : parseHex digits = (read 32 · 0) <$> unhex digits := if_neg (not_not.mpr hlen)
      rw [hdone, unhex_eq]
      cases hd : Hex.decode digits with
      | none => simp
      | some bs =>
        have hbs := hread bs (by rw [Hex.length_decode hd, hlen])
        show Except.ok (read 32 bs 0) = .ok k ↔ digits.length = 64 ∧ some bs = some k.toList
        constructor
        · intro h
          exact ⟨hlen, by rw [← Except.ok.inj h, hbs]⟩
        · rintro ⟨-, h⟩
          rw [Vector.toList_inj.mp (hbs.trans (Option.some.inj h))]
    · have hbad : parseHex digits = .error .badHex := if_pos hlen
      simp [hbad, hlen]
  unfold parseKey
  cases hp : tag.isPrefixOf? s with
  | none =>
    simp only [reduceCtorEq, false_iff]
    rintro ⟨digits, rfl, -⟩
    rw [List.isPrefixOf?_eq_some_iff_append_eq.mpr rfl] at hp
    cases hp
  | some digits =>
    obtain rfl := List.isPrefixOf?_eq_some_iff_append_eq.mp hp
    simp only
    rw [hhex]
    constructor
    · exact fun h => ⟨digits, rfl, h⟩
    · rintro ⟨digits', heq, h⟩
      rwa [List.append_cancel_left heq]

/-- Writes the prefixed wire form to the front of `out`: its length, and the buffer
then. -/
def writeKey (tag : List UInt8) (k : Key) (out : List UInt8) :
    Except KeyError (ℕ × List UInt8) :=
  let total := tag.length + 32 * 2
  if out.length < total then .error .shortBuffer
  else .ok (total, blit (blit out 0 tag) tag.length (Hex.encode k.toList))

/-- `MachinePublic::write`, under its prefix. -/
def MachinePublic.write (k : MachinePublic) (out : List UInt8) :
    Except KeyError (ℕ × List UInt8) :=
  writeKey "mkey:".toUTF8.toList k.bytes out

/-- `NodePublic::write`, under its prefix. -/
def NodePublic.write (k : NodePublic) (out : List UInt8) : Except KeyError (ℕ × List UInt8) :=
  writeKey "nodekey:".toUTF8.toList k.bytes out

/-- `DiscoPublic::write`, under its prefix. -/
def DiscoPublic.write (k : DiscoPublic) (out : List UInt8) : Except KeyError (ℕ × List UInt8) :=
  writeKey "discokey:".toUTF8.toList k.bytes out

/-- The wire form, in a buffer that has room for it. -/
theorem writeKey_eq {tag out : List UInt8} (k : Key) (h : tag.length + 64 ≤ out.length) :
    ∃ buf, writeKey tag k out = .ok (tag.length + 64, buf) ∧
      buf.take (tag.length + 64) = tag ++ Hex.encode k.toList := by
  have hlen : (Hex.encode k.toList).length = 64 := by
    rw [Hex.length_encode, Vector.length_toList]
  unfold writeKey
  simp only
  rw [if_neg (by omega)]
  refine ⟨_, rfl, ?_⟩
  have hsize : (blit out 0 tag).length = out.length := length_blit (by omega)
  rw [take_blit (by rw [hlen]) (by omega), take_blit (by rw [Nat.zero_add]) (Nat.zero_le _)]
  rfl

end Lando
