/-
Lando/Disco.lean

Endpoint discovery (`disco.rs`) and TSMP (`tsmp.rs`): the two ping and pong
exchanges that a node answers.

A disco message is a cleartext header (magic, sender key, nonce) and a NaCl
box.  TSMP rides inside the tunnel as an IPv4 packet of protocol 99.  Output
buffers enter through their length; the result is the bytes written.
-/
import Lando.Wireguard

namespace Lando

open Bytes

/-! ### Disco keys -/

/-- A disco public key. -/
structure DiscoPublic where
  bytes : Key
  deriving DecidableEq

/-- A disco private key. -/
structure DiscoPrivate where
  bytes : Key
  deriving DecidableEq

/-- The point of the key. -/
def DiscoPrivate.«public» (P : Primitives) (sk : DiscoPrivate) : DiscoPublic :=
  ⟨P.x25519Base sk.bytes⟩

namespace Disco

/-! ### Disco messages -/

/-- `TS` followed by U+1F4AC. -/
def magic : List UInt8 := [0x54, 0x53, 0xf0, 0x9f, 0x92, 0xac]

/-- The nonce in front of a sealed message. -/
def nonceLen : ℕ := 24

/-- The tag of a sealed message. -/
def tagLen : ℕ := 16

/-- The sender's key. -/
def keyLen : ℕ := 32

/-- Magic, sender key and nonce. -/
def headerLen : ℕ := magic.length + keyLen + nonceLen

/-- The type byte of a ping. -/
def typePing : UInt8 := 0x01

/-- The type byte of a pong. -/
def typePong : UInt8 := 0x02

/-- The only version. -/
def v0 : UInt8 := 0

/-- `TxID`, 16-byte v4-mapped address, big-endian port. -/
def pongBody : ℕ := 12 + 16 + 2

/-- `DiscoError`. -/
inductive DiscoError
  | notDisco
  | crypto
  | malformed
  | shortBuffer
  deriving DecidableEq, Repr

/-- The cleartext part of a disco packet. -/
structure Header where
  sender : DiscoPublic
  nonce : BoxNonce
  deriving DecidableEq

/-- A ping we are expected to answer. -/
structure Ping where
  /-- Echoed back verbatim. -/
  txId : Vector UInt8 12
  /-- Present on modern senders, absent on old ones. -/
  nodeKey : Option NodePublic
  deriving DecidableEq

/-- Splits the cleartext header from the sealed remainder. -/
def parseHeader (packet : List UInt8) : Except DiscoError (Header × List UInt8) :=
  if packet.length < headerLen ∨ packet.take magic.length ≠ magic then .error .notDisco
  else
    .ok (⟨⟨read 32 packet magic.length⟩, read 24 packet (magic.length + keyLen)⟩,
      packet.drop headerLen)

/-- Opens a sealed disco payload into `outLen` bytes. -/
def «open» (P : Primitives) (ourDiscoSecret : Key) (header : Header) (sealed : List UInt8)
    (outLen : ℕ) : Except DiscoError (List UInt8) :=
  if sealed.length < tagLen then .error .malformed
  else if outLen < sealed.length - tagLen then .error .shortBuffer
  else
    -- the tag stands before the ciphertext
    let tag := read 16 sealed 0
    let ciphertext := sealed.drop tagLen
    match P.boxDecrypt ourDiscoSecret header.sender.bytes header.nonce ciphertext tag with
    | none => .error .crypto
    | some plain => .ok plain

/-- Interprets an opened payload as a ping; trailing bytes are ignored. -/
def parsePing (plaintext : List UInt8) : Except DiscoError Ping :=
  if plaintext.length < 2 + 12 ∨ plaintext.head? ≠ some typePing then .error .malformed
  else
    let body := plaintext.drop 2
    let nodeKey := if 12 + keyLen ≤ body.length then some ⟨read 32 body 12⟩ else none
    .ok ⟨read 12 body 0, nodeKey⟩

/-- Builds a complete pong packet; `srcIp` and `srcPort` are where the ping
arrived from. -/
def writePong (P : Primitives) (ourDiscoSecret : Key) (ourDiscoPublic peer : DiscoPublic)
    (nonce : BoxNonce) (txId : Vector UInt8 12) (srcIp : Vector UInt8 4) (srcPort : UInt16)
    (outLen : ℕ) : Except DiscoError (List UInt8) :=
  let total := headerLen + tagLen + 2 + pongBody
  if outLen < total then .error .shortBuffer
  else
    let header := magic ++ ourDiscoPublic.bytes.toList ++ nonce.toList
    -- addresses go on the wire as 16 bytes; IPv4 is v4-mapped IPv6
    let body := [typePong, v0] ++ txId.toList ++ [0, 0, 0, 0, 0, 0, 0, 0, 0, 0, 0xff, 0xff] ++
      srcIp.toList ++ toBE 2 srcPort.toNat
    match P.boxEncrypt ourDiscoSecret peer.bytes nonce body with
    | none => .error .crypto
    | some (ciphertext, tag) => .ok (header ++ tag.toList ++ ciphertext)

/-- A pong stays in the buffer. -/
theorem length_writePong {P : Primitives} (hB : P.BoxInPlace) {secret : Key}
    {ours peer : DiscoPublic} {nonce : BoxNonce} {txId : Vector UInt8 12}
    {srcIp : Vector UInt8 4} {srcPort : UInt16} {outLen : ℕ} {pong : List UInt8}
    (h : writePong P secret ours peer nonce txId srcIp srcPort outLen = .ok pong) :
    pong.length ≤ outLen := by
  unfold writePong at h
  simp only at h
  split_ifs at h with hroom
  split at h
  · cases h
  next ciphertext tag hbox =>
    have hroom' : 6 + 32 + 24 + 16 + 2 + (12 + 16 + 2) ≤ outLen := Nat.not_lt.mp hroom
    have hlen := hB _ _ _ _ _ _ hbox
    obtain rfl := Except.ok.inj h
    simp only [List.length_append, Vector.length_toList, magic, List.length_cons, List.length_nil,
      hlen, length_toBE]
    exact hroom'

end Disco

namespace Tsmp

/-! ### TSMP -/

/-- The protocol number in the IP header. -/
def ipProtoTsmp : UInt8 := 99

/-- The type byte of a ping. -/
def typePing : UInt8 := 112

/-- The type byte of a pong. -/
def typePong : UInt8 := 111

/-- An IPv4 header without options. -/
def ipv4HeaderLen : ℕ := 20

/-- The type, 8 echoed bytes and a 2-byte PeerAPI port. -/
def pongPayloadLen : ℕ := 11

/-- A TSMP ping. -/
structure Ping where
  /-- Bytes the sender wants echoed back untouched. -/
  data : Vector UInt8 8
  src : Vector UInt8 4
  /-- The address the request was sent to: the source of the reply. -/
  dst : Vector UInt8 4
  deriving DecidableEq

/-- Recognises a TSMP ping inside a decrypted tunnel packet. -/
def parsePing (packet : List UInt8) : Option Ping :=
  if packet.length < ipv4HeaderLen then none
  else if packet.getD 0 0 >>> 4 ≠ 4 then none
  else
    -- options may follow the fixed header
    let ihl := (packet.getD 0 0 &&& 0x0f).toNat * 4
    if ihl < ipv4HeaderLen ∨ packet.length < ihl + 9 then none
    else if packet.getD 9 0 ≠ ipProtoTsmp then none
    else
      let payload := packet.drop ihl
      if payload.getD 0 0 ≠ typePing then none
      else some ⟨read 8 payload 1, read 4 packet 12, read 4 packet 16⟩

/-- The 16-bit words of a header, summed; an odd last byte is a high one. -/
def sumWords : List UInt8 → ℕ
  | [] => 0
  | [b] => b.toNat * 256
  | b :: c :: rest => b.toNat * 256 + c.toNat + sumWords rest

/-- Carries are added back in. -/
def foldCarries (sum : ℕ) : ℕ :=
  if sum / 65536 = 0 then sum else foldCarries (sum % 65536 + sum / 65536)
termination_by sum
decreasing_by omega

/-- Standard IPv4 header checksum. -/
def checksum (header : List UInt8) : UInt16 := ~~~ UInt16.ofNat (foldCarries (sumWords header))

/-- Builds the IPv4 TSMP pong answering `ping`: source and destination are
swapped. -/
def writePong (ping : Ping) (outLen : ℕ) : Option (List UInt8) :=
  let total := ipv4HeaderLen + pongPayloadLen
  if outLen < total then none
  else
    let out := List.replicate total 0
    let out := blit out 0 [0x45]
    let out := blit out 2 (toBE 2 total)
    let out := blit out 8 [64]
    let out := blit out 9 [ipProtoTsmp]
    let out := blit out 12 ping.dst.toList
    let out := blit out 16 ping.src.toList
    -- the checksum field is still zero here
    let sum := checksum (out.take ipv4HeaderLen)
    let out := blit out 10 (toBE 2 sum.toNat)
    let out := blit out ipv4HeaderLen [typePong]
    some (blit out (ipv4HeaderLen + 1) ping.data.toList)

end Tsmp

end Lando
