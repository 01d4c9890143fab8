/-
Lando/Wireguard.lean

The vocabulary of the WireGuard data plane (`wireguard/mod.rs`): message
types and lengths, the error type, TAI64N timestamps and `mac1`, together
with the session keys a handshake yields (`wireguard/handshake.rs`).
-/
import Lando.Crypto

namespace Lando

/-! ### Messages -/

/-- The type of a handshake's first message. -/
def msgInitiation : UInt8 := 1

/-- The type of its answer. -/
def msgResponse : UInt8 := 2

/-- The type of everything later. -/
def msgTransport : UInt8 := 4

/-- The length of the first message. -/
def initiationLen : ℕ := 148

/-- The length of the answer. -/
def responseLen : ℕ := 92

/-- Type, reserved bytes, receiver and counter, before any ciphertext. -/
def transportHeaderLen : ℕ := 16

/-- The tag of a sealed text. -/
def tagLen : ℕ := 16

/-- `WgError`. -/
inductive WgError
  | malformed
  | decrypt
  | badMac
  | replayedHandshake
  | replayedTransport
  | nonceExhausted
  | shortBuffer
  deriving DecidableEq, Repr

/-! ### Timestamps and `mac1` -/

/-- A 12-byte TAI64N timestamp, compared as a byte string. -/
structure Tai64n where
  bytes : Vector UInt8 12
  deriving DecidableEq

/-- True when `ts` would be accepted by a peer that last saw `previous`. -/
def Tai64n.isNewerThan (ts previous : Tai64n) : Bool :=
  decide (previous.bytes.toList < ts.bytes.toList)

/-- What goes into the key of `mac1`. -/
def labelMac1 : List UInt8 := "mac1----".toUTF8.toList

/-- `MAC(HASH(LABEL_MAC1 || peer_static), message_prefix)`. -/
def mac1 (P : Primitives) (peerStatic : NodePublic) (messagePrefix : List UInt8) : Tag :=
  let key := hashParts P [labelMac1, peerStatic.bytes.toList]
  keyedMac P key.toList [messagePrefix]

/-! ### Session keys -/

/-- Keys and indices for an established session. -/
structure SessionKeys where
  send : Key
  receive : Key
  /-- The index we chose; peers put it in the `receiver` field. -/
  localIndex : UInt32
  /-- The index the peer chose. -/
  peerIndex : UInt32
  deriving DecidableEq

/-- The two ends of one session: each sends with what the other receives
with, and each knows the other's index. -/
structure SessionKeys.Mirrored (a b : SessionKeys) : Prop where
  send_eq : a.send = b.receive
  receive_eq : a.receive = b.send
  local_eq : a.localIndex = b.peerIndex
  peer_eq : a.peerIndex = b.localIndex

end Lando
