/-
Lando/Crypto.lean

The cryptographic primitives, as parameters, and what the source builds on
them (`crypto.rs`, the key types of `key.rs`).

BLAKE2s, X25519, ChaCha20-Poly1305 and the NaCl box come from third-party
crates.  Here they are fields of `Primitives`, with no law attached; a
result that needs one names it: `Aead.Lawful` and `Aead.TagChecked` for the cipher,
`Primitives.DhCommutes` for X25519, `Primitives.BoxInPlace` for the box.
Everything above them (`hmac`, `kdf`, `keyedMac`) follows the source.

A cipher object built with `new_from_slice` is determined by its key, so the
model keeps the key in its place.
-/
import Mathlib.Tactic.SplitIfs
import Lando.Bytes

namespace Lando

/-- `[u8; KEY_LEN]`. -/
abbrev Key := Vector UInt8 32

/-- An AEAD or MAC tag of 16 bytes. -/
abbrev Tag := Vector UInt8 16

/-- A 12-byte AEAD nonce. -/
abbrev Nonce := Vector UInt8 12

/-- A 24-byte NaCl nonce. -/
abbrev BoxNonce := Vector UInt8 24

/-! ### The authenticated cipher -/

/-- `ChaCha20Poly1305` in its detached in-place form.  Both directions can
fail: encryption on an overlong buffer, decryption on a bad tag. -/
structure Aead where
  encryptInPlaceDetached :
    Key → Nonce → List UInt8 → List UInt8 → Option (List UInt8 × Tag)
  decryptInPlaceDetached :
    Key → Nonce → List UInt8 → List UInt8 → Tag → Option (List UInt8)

/-- What the crate documents: buffers below its block limit are encrypted,
in place, and decrypting the result under the same key, nonce and associated
data gives the buffer back. -/
structure Aead.Lawful (A : Aead) : Prop where
  encrypt_isSome : ∀ k n ad p, p.length / 64 < 2 ^ 32 - 1 →
    (A.encryptInPlaceDetached k n ad p).isSome
  encrypt_length : ∀ k n ad p c t,
    A.encryptInPlaceDetached k n ad p = some (c, t) → c.length = p.length
  decrypt_encrypt : ∀ k n ad p c t,
    A.encryptInPlaceDetached k n ad p = some (c, t) →
      A.decryptInPlaceDetached k n ad c t = some p

/-- Decryption makes the tag again and compares: below the block limit, what opens
under a key, a nonce and associated data is what encrypting under them gives. -/
def Aead.TagChecked (A : Aead) : Prop :=
  ∀ k n ad c t p, c.length / 64 < 2 ^ 32 - 1 →
    A.decryptInPlaceDetached k n ad c t = some p → A.encryptInPlaceDetached k n ad p = some (c, t)

/-- A short buffer is always encrypted. -/
theorem Aead.Lawful.exists_encrypt {A : Aead} (hA : A.Lawful) (k : Key) (n : Nonce)
    (ad : List UInt8) {p : List UInt8} (hp : p.length ≤ 64) :
    ∃ c t, A.encryptInPlaceDetached k n ad p = some (c, t) ∧ c.length = p.length ∧
      A.decryptInPlaceDetached k n ad c t = some p := by
  have hlim : p.length / 64 < 2 ^ 32 - 1 := by omega
  obtain ⟨⟨c, t⟩, e⟩ := Option.isSome_iff_exists.mp (hA.encrypt_isSome k n ad p hlim)
  exact ⟨c, t, e, hA.encrypt_length _ _ _ _ _ _ e, hA.decrypt_encrypt _ _ _ _ _ _ e⟩

/-- One byte that depends on all of `text`. -/
def checksumByte (text : List UInt8) (salt : UInt8) : UInt8 :=
  text.foldl (fun acc b => acc * 31 + b + salt) 7

/-- A cipher with the laws and nothing else: the text stands in the clear and
the tag is a checksum of everything the real one authenticates. -/
def checksumAead : Aead where
  encryptInPlaceDetached := fun k n ad p =>
    if p.length / 64 < 2 ^ 32 - 1 then some (p, tagOf k n ad p) else none
  decryptInPlaceDetached := fun k n ad c t =>
    if t = tagOf k n ad c then some c else none
where
  tagOf (k : Key) (n : Nonce) (ad p : List UInt8) : Tag :=
    Vector.ofFn fun i => checksumByte (k.toList ++ n.toList ++ ad ++ p) (UInt8.ofNat i)

theorem checksumAead_lawful : checksumAead.Lawful where
  encrypt_isSome := by
    intro k n ad p hp
    simp only [checksumAead, if_pos hp, Option.isSome_some]
  encrypt_length := by
    intro k n ad p c t h
    simp only [checksumAead] at h
    split_ifs at h
    obtain ⟨rfl, -⟩ := Prod.mk.inj (Option.some.inj h)
    rfl
  decrypt_encrypt := by
    intro k n ad p c t h
    simp only [checksumAead] at h ⊢
    split_ifs at h
    obtain ⟨rfl, rfl⟩ := Prod.mk.inj (Option.some.inj h)
    simp

theorem checksumAead_tagChecked : checksumAead.TagChecked := by
  intro k n ad c t p hc h
  simp only [checksumAead] at h ⊢
  split_ifs at h with ht
  obtain rfl := Option.some.inj h
  rw [if_pos hc, ht]

/-! ### The other primitives -/

/-- The primitives the program takes from elsewhere. -/
structure Primitives extends Aead where
  blake2s256 : List UInt8 → Key
  blake2sMac : List UInt8 → List UInt8 → Tag
  x25519Base : Key → Key
  x25519 : Key → Key → Key
  /-- The NaCl box of a secret and a public key, detached. -/
  boxEncrypt : Key → Key → BoxNonce → List UInt8 → Option (List UInt8 × Tag)
  boxDecrypt : Key → Key → BoxNonce → List UInt8 → Tag → Option (List UInt8)

/-- X25519 commutes: both ends of an exchange derive one secret. -/
def Primitives.DhCommutes (P : Primitives) : Prop :=
  ∀ a b, P.x25519 a (P.x25519Base b) = P.x25519 b (P.x25519Base a)

/-- The box encrypts in place: the ciphertext is as long as the text. -/
def Primitives.BoxInPlace (P : Primitives) : Prop :=
  ∀ sk pk n p c t, P.boxEncrypt sk pk n p = some (c, t) → c.length = p.length

/-- What NaCl documents of the box: everything can be sealed, in place, and what
is sealed from one key pair to another opens at the other end. -/
structure Primitives.BoxLawful (P : Primitives) : Prop where
  encrypt_isSome : ∀ sk pk n p, (P.boxEncrypt sk pk n p).isSome
  inPlace : P.BoxInPlace
  decrypt_encrypt : ∀ a b n p c t,
    P.boxEncrypt a (P.x25519Base b) n p = some (c, t) →
      P.boxDecrypt b (P.x25519Base a) n c t = some p

/-- Primitives with the laws and nothing else, after `checksumAead`. -/
def checksumPrimitives : Primitives where
  toAead := checksumAead
  blake2s256 := fun text => Vector.ofFn fun i => checksumByte text (UInt8.ofNat i)
  blake2sMac := fun key text => Vector.ofFn fun i => checksumByte (key ++ text) (UInt8.ofNat i)
  x25519Base := fun k => k.map (0x55 ^^^ ·)
  x25519 := fun k peer => Vector.zipWith (· ^^^ ·) k peer
  boxEncrypt := fun _ _ n p =>
    some (p, Vector.ofFn fun i => checksumByte (n.toList ++ p) (UInt8.ofNat i))
  boxDecrypt := fun _ _ n c t =>
    if t = Vector.ofFn fun i => checksumByte (n.toList ++ c) (UInt8.ofNat i) then some c else none

/-- `checksumPrimitives` with a hash that is quick to evaluate. -/
def samplePrimitives : Primitives := { checksumPrimitives with blake2s256 := fun _ => 0 }

theorem checksumPrimitives_dhCommutes : checksumPrimitives.DhCommutes := by
  intro a b
  apply Vector.ext
  intro i hi
  simp only [checksumPrimitives, Vector.getElem_zipWith, Vector.getElem_map]
  rw [UInt8.xor_comm 0x55, UInt8.xor_comm 0x55, ← UInt8.xor_assoc, ← UInt8.xor_assoc,
    UInt8.xor_comm a[i]]

theorem checksumPrimitives_boxInPlace : checksumPrimitives.BoxInPlace := by
  intro sk pk n p c t h
  obtain ⟨rfl, -⟩ := Prod.mk.inj (Option.some.inj h)
  rfl

theorem checksumPrimitives_boxLawful : checksumPrimitives.BoxLawful where
  encrypt_isSome := fun _ _ _ _ => rfl
  inPlace := checksumPrimitives_boxInPlace
  decrypt_encrypt := by
    intro a b n p c t h
    simp only [checksumPrimitives] at h ⊢
    obtain ⟨rfl, rfl⟩ := Prod.mk.inj (Option.some.inj h)
    rw [if_pos]
    rfl

variable (P : Primitives)

/-! ### `crypto.rs` -/

/-- BLAKE2s over one text. -/
def hash (data : List UInt8) : Key := P.blake2s256 data

/-- The hash of a sequence of parts, fed one after the other. -/
def hashParts (parts : List (List UInt8)) : Key := P.blake2s256 parts.flatten

/-- HMAC over BLAKE2s; a key longer than the block of 64 bytes is hashed
first, a shorter one padded with zeros. -/
def hmac (key : List UInt8) (parts : List (List UInt8)) : Key :=
  let padded :=
    if 64 < key.length then (hash P key).toList ++ List.replicate 32 0
    else key ++ List.replicate (64 - key.length) 0
  let ipad := padded.map (0x36 ^^^ ·)
  let opad := padded.map (0x5c ^^^ ·)
  let inner := P.blake2s256 (ipad ++ parts.flatten)
  P.blake2s256 (opad ++ inner.toList)

/-- Output `i` of the key derivation: each block after the first feeds on
the one before it. -/
def kdfBlock (prk : Key) : ℕ → Key
  | 0 => hmac P prk.toList [[1]]
  | i + 1 => hmac P prk.toList [(kdfBlock prk i).toList, [UInt8.ofNat (i + 2)]]

/-- HKDF with an empty `info`, `n` outputs of 32 bytes. -/
def kdf (n : ℕ) (key input : List UInt8) : Vector Key n :=
  Vector.ofFn fun i => kdfBlock P (hmac P key [input]) i

/-- BLAKE2s in keyed mode with a 16-byte digest, WireGuard's `MAC`. -/
def keyedMac (key : List UInt8) (parts : List (List UInt8)) : Tag :=
  P.blake2sMac key parts.flatten

/-! ### Node keys -/

/-- A node's public key. -/
structure NodePublic where
  bytes : Key
  deriving DecidableEq

/-- A node's private key. -/
structure NodePrivate where
  bytes : Key
  deriving DecidableEq

namespace NodePrivate

/-- Any 32 bytes are a private key. -/
def fromBytes (b : Key) : NodePrivate := ⟨b⟩

/-- The point of the key. -/
def «public» (sk : NodePrivate) : NodePublic := ⟨P.x25519Base sk.bytes⟩

/-- Raw X25519 with a peer's public key. -/
def dh (sk : NodePrivate) (peer : NodePublic) : Key := P.x25519 sk.bytes peer.bytes

theorem dh_comm {P : Primitives} (hP : P.DhCommutes) (a b : NodePrivate) :
    a.dh P (b.public P) = b.dh P (a.public P) := hP a.bytes b.bytes

end NodePrivate

/-! ### Machine keys -/

/-- A machine's public key. -/
structure MachinePublic where
  bytes : Key
  deriving DecidableEq

/-- A machine's private key. -/
structure MachinePrivate where
  bytes : Key
  deriving DecidableEq

namespace MachinePrivate

/-- The point of the key. -/
def «public» (sk : MachinePrivate) : MachinePublic := ⟨P.x25519Base sk.bytes⟩

/-- Raw X25519 with a peer's public key. -/
def dh (sk : MachinePrivate) (peer : MachinePublic) : Key := P.x25519 sk.bytes peer.bytes

theorem dh_comm {P : Primitives} (hP : P.DhCommutes) (a b : MachinePrivate) :
    a.dh P (b.public P) = b.dh P (a.public P) := hP a.bytes b.bytes

end MachinePrivate

end Lando
