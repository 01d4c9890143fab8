/-
Lando/FwDisco.lean

Pings that the firmware answers (`lando-fw/src/wg.rs`, `Node::handle`, with
`disco.rs`).

A ping is a type, a version, a transaction id, and whatever a newer sender adds
behind it.  `parse_ping` ignores what it does not know.  But the box has to be
opened first, into a scratch buffer of 256 bytes, and there the length of the
whole ping counts.  So a ping of 256 bytes is answered, with anything behind its
transaction id, and a longer one is dropped.
-/
import Lando.FwNode

namespace Lando

open Bytes

/-! ### Sealed messages -/

namespace Disco

/-- A disco message on the wire: header, tag and ciphertext. -/
def wire (sender : DiscoPublic) (nonce : BoxNonce) (sealed : List UInt8 × Tag) : List UInt8 :=
  magic ++ sender.bytes.toList ++ nonce.toList ++ sealed.2.toList ++ sealed.1

/-- A message that `sender` seals to `recipient`. -/
def sealTo (P : Primitives) (sender : DiscoPrivate) (recipient : DiscoPublic) (nonce : BoxNonce)
    (plain : List UInt8) : Option (List UInt8) :=
  (P.boxEncrypt sender.bytes recipient.bytes nonce plain).map (wire (sender.public P) nonce)

/-- A ping with anything behind its transaction id. -/
def pingText (version : UInt8) (txId : Vector UInt8 12) (trailing : List UInt8) : List UInt8 :=
  typePing :: version :: (txId.toList ++ trailing)

/-- A pong: the transaction id, and the address and port as 16 and 2 bytes. -/
def pongText (txId : Vector UInt8 12) (addr : Vector UInt8 4) (port : UInt16) : List UInt8 :=
  [typePong, v0] ++ txId.toList ++ [0, 0, 0, 0, 0, 0, 0, 0, 0, 0, 0xff, 0xff] ++ addr.toList ++
    toBE 2 port.toNat

theorem length_pingText (version : UInt8) (txId : Vector UInt8 12) (trailing : List UInt8) :
    (pingText version txId trailing).length = 14 + trailing.length := by
  simp only [pingText, List.length_cons, List.length_append, Vector.length_toList]
  omega

/-- The header is split off what it was put in front of. -/
theorem parseHeader_wire (sender : DiscoPublic) (nonce : BoxNonce) (sealed : List UInt8 × Tag) :
    parseHeader (wire sender nonce sealed) =
      .ok (⟨sender, nonce⟩, sealed.2.toList ++ sealed.1) := by
  have hs : sender.bytes.toList.length = 32 := Vector.length_toList
  have hn : nonce.toList.length = 24 := Vector.length_toList
  have hwire : wire sender nonce sealed =
      magic ++ (sender.bytes.toList ++ (nonce.toList ++ (sealed.2.toList ++ sealed.1))) := by
    simp only [wire, List.append_assoc]
  have hlen : ¬ (wire sender nonce sealed).length < headerLen := by
    rw [hwire]
    simp only [List.length_append, hs, hn, headerLen, keyLen, nonceLen]
    omega
  have hmagic : (wire sender nonce sealed).take magic.length = magic := by
    rw [hwire, List.take_left]
  have hsender : read 32 (wire sender nonce sealed) magic.length = sender.bytes := by
    refine read_eq ?_
    rw [hwire]
    exact slice_append_mid rfl (by rw [hs])
  have hnonce : read 24 (wire sender nonce sealed) (magic.length + keyLen) = nonce := by
    refine read_eq ?_
    rw [hwire, ← List.append_assoc]
    exact slice_append_mid (by rw [List.length_append, hs, keyLen]) (by rw [hn])
  have hrest : (wire sender nonce sealed).drop headerLen = sealed.2.toList ++ sealed.1 := by
    rw [hwire, ← List.append_assoc, ← List.append_assoc]
    refine List.drop_left' ?_
    simp only [List.length_append, hs, hn, headerLen, keyLen, nonceLen]
  rw [parseHeader, if_neg (by rw [not_or, not_not]; exact ⟨hlen, hmagic⟩), hsender, hnonce, hrest]

/-- What was sealed opens at the other end, if there is room for it. -/
theorem open_sealed {P : Primitives} (hB : P.BoxLawful) {a b : DiscoPrivate} {nonce : BoxNonce}
    {plain ciphertext : List UInt8} {tag : Tag}
    (h : P.boxEncrypt a.bytes (b.public P).bytes nonce plain = some (ciphertext, tag))
    (outLen : ℕ) :
    Disco.open P b.bytes ⟨a.public P, nonce⟩ (tag.toList ++ ciphertext) outLen =
      if plain.length ≤ outLen then .ok plain else .error .shortBuffer := by
  have ht : tag.toList.length = tagLen := Vector.length_toList
  have hlen : (tag.toList ++ ciphertext).length - tagLen = plain.length := by
    rw [List.length_append, ht, Nat.add_sub_cancel_left]
    exact hB.inPlace _ _ _ _ _ _ h
  have htag : read 16 (tag.toList ++ ciphertext) 0 = tag := by
    refine read_eq ?_
    rw [slice, List.drop_zero]
    exact List.take_left' ht
  unfold Disco.open
  rw [if_neg (by rw [List.length_append, ht]; omega), hlen]
  by_cases hroom : plain.length ≤ outLen
  · have hopen := hB.decrypt_encrypt _ _ _ _ _ _ h
    rw [if_neg (by omega), if_pos hroom, htag, List.drop_left' ht]
    simp only [DiscoPrivate.public, hopen]
  · rw [if_pos (by omega), if_neg hroom]

/-- Only the type and the transaction id of a ping matter. -/
theorem parsePing_pingText (version : UInt8) (txId : Vector UInt8 12) (trailing : List UInt8) :
    ∃ nodeKey, parsePing (pingText version txId trailing) = .ok ⟨txId, nodeKey⟩ := by
  have htx : read 12 ((pingText version txId trailing).drop 2) 0 = txId := by
    refine read_eq ?_
    rw [slice, List.drop_zero]
    exact List.take_left' Vector.length_toList
  unfold parsePing
  rw [if_neg]
  · simp only [htx]
    exact ⟨_, rfl⟩
  · rw [not_or, not_not]
    refine ⟨?_, rfl⟩
    rw [length_pingText]
    omega

/-- A pong is sealed to the pinger, if there is room for it. -/
theorem writePong_eq {P : Primitives} (hB : P.BoxLawful) (secret : DiscoPrivate)
    (peer : DiscoPublic) (nonce : BoxNonce) (txId : Vector UInt8 12) (addr : Vector UInt8 4)
    (port : UInt16) {outLen : ℕ} (hroom : 110 ≤ outLen) :
    ∃ sealed, P.boxEncrypt secret.bytes peer.bytes nonce (pongText txId addr port) = some sealed ∧
      writePong P secret.bytes (secret.public P) peer nonce txId addr port outLen =
        .ok (wire (secret.public P) nonce sealed) := by
  obtain ⟨⟨ciphertext, tag⟩, hsealed⟩ := Option.isSome_iff_exists.mp
    (hB.encrypt_isSome secret.bytes peer.bytes nonce (pongText txId addr port))
  refine ⟨⟨ciphertext, tag⟩, hsealed, ?_⟩
  have hlen : ¬ outLen < headerLen + tagLen + 2 + pongBody := by
    show ¬ outLen < 110
    omega
  unfold pongText at hsealed
  unfold writePong
  simp only [if_neg hlen, hsealed]
  rfl

end Disco

namespace Fw.Node

variable {P : Primitives}

/-! ### The node's disco key -/

/-- The public key that a node names in its pongs is that of its own. -/
def DiscoKeyed (P : Primitives) (discoKey : DiscoPrivate) (node : Node) : Prop :=
  node.discoKey = discoKey ∧ node.discoPublic = discoKey.public P

theorem handleInitiation_disco (node : Node) (packet : List UInt8) (source : Source)
    (outLen : ℕ) :
    (node.handleInitiation P packet source outLen).1.discoKey = node.discoKey ∧
      (node.handleInitiation P packet source outLen).1.discoPublic = node.discoPublic := by
  unfold handleInitiation
  rcases Responder.consumeInitiation P node.nodeKey packet with e | ⟨responder, learned⟩
  · exact ⟨rfl, rfl⟩
  simp only
  rcases responder.respond P (NodePrivate.fromBytes (ephemeralSeed node.nextIndex packet.length))
    node.nextIndex with e | ⟨response, keys⟩
  · exact ⟨rfl, rfl⟩
  simp only
  split_ifs
  · exact ⟨rfl, rfl⟩
  · exact ⟨rfl, rfl⟩

theorem DiscoKeyed.step {discoKey : DiscoPrivate} {node : Node}
    (h : node.DiscoKeyed P discoKey) (e : NodeEvent) : (node.step P e).DiscoKeyed P discoKey := by
  cases e with
  | outbound packet =>
    rcases encrypt_peer P node packet bufferLen with ⟨-, he⟩ | ⟨slot, session, out, -, -, he, -⟩
    · rw [Node.step, he]
      exact h
    · rw [Node.step, he]
      exact h
  | inbound packet source =>
    rw [Node.step]
    by_cases h₁ : packet.head? = some msgInitiation
    · rw [handle_initiation h₁]
      obtain ⟨hkey, hpublic⟩ := handleInitiation_disco (P := P) node packet source bufferLen
      exact ⟨hkey.trans h.1, hpublic.trans h.2⟩
    by_cases h₂ : packet.head? = some msgTransport
    · rw [handle_transport h₂]
      rcases handleTransport_peer P node packet source bufferLen with
        ⟨-, he⟩ | ⟨slot, session, -, -, he, -, -⟩
      · rw [he]
        exact h
      · rw [he]
        exact h
    · obtain ⟨nonce, he⟩ := handle_other P node source bufferLen h₁ h₂
      rw [he]
      exact h

theorem DiscoKeyed.run {discoKey : DiscoPrivate} {node : Node} (h : node.DiscoKeyed P discoKey)
    (events : List NodeEvent) : (node.run P events).DiscoKeyed P discoKey := by
  induction events generalizing node with
  | nil => exact h
  | cons e events ih => exact ih (h.step e)

/-! ### Pings -/

/-- The reply is a pong that the pinger opens: it echoes the transaction id and
names the address that the ping was seen from. -/
def Pongs (P : Primitives) (sender discoKey : DiscoPrivate) (txId : Vector UInt8 12)
    (source : Source) (action : Option Action) : Prop :=
  ∃ pong header sealed, action = some (.reply pong) ∧
    Disco.parseHeader pong = .ok (header, sealed) ∧ header.sender = discoKey.public P ∧
    Disco.open P sender.bytes header sealed 256 =
      .ok (Disco.pongText txId (pongAddress source).1 (pongAddress source).2)

theorem length_pongText (txId : Vector UInt8 12) (addr : Vector UInt8 4) (port : UInt16) :
    (Disco.pongText txId addr port).length = 32 := by
  simp [Disco.pongText]

variable {sender discoKey : DiscoPrivate} {nonce : BoxNonce} {version : UInt8}
  {txId : Vector UInt8 12} {trailing packet : List UInt8} {node : Node}

/-- What the node does with a ping that is sealed to it. -/
theorem handle_ping (hB : P.BoxLawful) (hnode : node.DiscoKeyed P discoKey)
    (hpacket : Disco.sealTo P sender (discoKey.public P) nonce
      (Disco.pingText version txId trailing) = some packet) (source : Source) :
    if 14 + trailing.length ≤ 256 then
      Pongs P sender discoKey txId source (node.handle P packet source bufferLen).2
    else node.handle P packet source bufferLen = (node, none) := by
  obtain ⟨⟨ciphertext, tag⟩, hsealed, rfl⟩ := Option.map_eq_some_iff.mp hpacket
  have hopen := Disco.open_sealed hB hsealed 256
  rw [Disco.length_pingText] at hopen
  rw [handle, Disco.parseHeader_wire]
  simp only [handleDisco, hnode.1, hnode.2, hopen]
  by_cases hroom : 14 + trailing.length ≤ 256
  · rw [if_pos hroom, if_pos hroom]
    obtain ⟨nodeKey, hparse⟩ := Disco.parsePing_pingText version txId trailing
    obtain ⟨⟨pongText, pongTag⟩, hpong, hwrite⟩ := Disco.writePong_eq hB discoKey
      (sender.public P) (bump node.nonce) txId (pongAddress source).1 (pongAddress source).2
      (show 110 ≤ bufferLen by decide)
    simp only [hparse, hwrite]
    refine ⟨_, _, _, rfl, Disco.parseHeader_wire _ _ _, rfl, ?_⟩
    rw [Disco.open_sealed hB hpong 256, length_pongText]
    rfl
  · rw [if_neg hroom, if_neg hroom]

theorem handle_long_ping (hB : P.BoxLawful) (hnode : node.DiscoKeyed P discoKey)
    (hpacket : Disco.sealTo P sender (discoKey.public P) nonce
      (Disco.pingText version txId trailing) = some packet) (hlong : 256 < 14 + trailing.length)
    (source : Source) : node.handle P packet source bufferLen = (node, none) := by
  have h := handle_ping hB hnode hpacket source
  rwa [if_neg (Nat.not_le.mpr hlong)] at h

variable (P) in
/-- **Which pings are answered.**  For every node, whatever it has been through,
and every ping that is sealed to it, with anything behind its transaction id and
from anywhere: the pinger gets its pong exactly if the ping is 256 bytes at
most.  A longer one is dropped. -/
theorem ping_answered_iff (hB : P.BoxLawful) (nodeKey : NodePrivate) (discoKey : DiscoPrivate)
    (indexSeed : UInt32) (events : List NodeEvent) (sender : DiscoPrivate) (nonce : BoxNonce)
    (version : UInt8) (txId : Vector UInt8 12) (trailing packet : List UInt8)
    (hpacket : Disco.sealTo P sender (discoKey.public P) nonce
      (Disco.pingText version txId trailing) = some packet) (source : Source) :
    let node := (Node.new P nodeKey discoKey indexSeed).run P events
    (Pongs P sender discoKey txId source (node.handle P packet source bufferLen).2 ↔
      (Disco.pingText version txId trailing).length ≤ 256) ∧
    (256 < (Disco.pingText version txId trailing).length →
      node.handle P packet source bufferLen = (node, none)) := by
  intro node
  have hstart : (Node.new P nodeKey discoKey indexSeed).DiscoKeyed P discoKey := ⟨rfl, rfl⟩
  have h := handle_ping hB (hstart.run events) hpacket source
  rw [Disco.length_pingText]
  by_cases hroom : 14 + trailing.length ≤ 256
  · rw [if_pos hroom] at h
    exact ⟨iff_of_true h hroom, fun hlong => absurd hroom (Nat.not_le.mpr hlong)⟩
  · rw [if_neg hroom] at h
    refine ⟨iff_of_false ?_ hroom, fun _ => h⟩
    rintro ⟨pong, header, sealed, haction, -⟩
    rw [h] at haction
    cases haction

/-- A ping that is padded to the full 256 bytes, seen over the relay. -/
theorem ping_answered_iff_full :
    let P := checksumPrimitives
    let disco (n : UInt8) : DiscoPrivate := ⟨Vector.replicate 32 n⟩
    let ping := Disco.pingText 3 (Vector.replicate 12 9) (List.replicate 242 0)
    ∃ packet, Disco.sealTo P (disco 3) ((disco 4).public P) (Vector.replicate 24 7) ping =
        some packet ∧
      let node := (Node.new P ⟨Vector.replicate 32 1⟩ (disco 4) 5).run P []
      Pongs P (disco 3) (disco 4) (Vector.replicate 12 9) (.derp (Vector.replicate 32 2))
        (node.handle P packet (.derp (Vector.replicate 32 2)) bufferLen).2 := by
  intro P disco ping
  refine ⟨_, rfl, ?_⟩
  refine ((ping_answered_iff P checksumPrimitives_boxLawful _ _ 5 [] _ _ 3 _ _ _ rfl _).1).mpr ?_
  rw [Disco.length_pingText, List.length_replicate]

/-- A newer sender that adds a byte more, in a packet of 335 bytes, gets no
answer. -/
theorem long_ping_dropped :
    let P := checksumPrimitives
    let disco (n : UInt8) : DiscoPrivate := ⟨Vector.replicate 32 n⟩
    let ping := Disco.pingText 0 (Vector.replicate 12 9) (List.replicate 243 0)
    ∃ packet, Disco.sealTo P (disco 3) ((disco 4).public P) (Vector.replicate 24 7) ping =
        some packet ∧ packet.length = 335 ∧
      let node := Node.new P ⟨Vector.replicate 32 1⟩ (disco 4) 5
      node.handle P packet (.derp (Vector.replicate 32 2)) bufferLen = (node, none) := by
  intro P disco ping
  obtain ⟨⟨ciphertext, tag⟩, hsealed⟩ := Option.isSome_iff_exists.mp
    (checksumPrimitives_boxLawful.encrypt_isSome (disco 3).bytes ((disco 4).public P).bytes
      (Vector.replicate 24 7) ping)
  have hpacket : Disco.sealTo P (disco 3) ((disco 4).public P) (Vector.replicate 24 7) ping =
      some (Disco.wire ((disco 3).public P) (Vector.replicate 24 7) (ciphertext, tag)) := by
    rw [Disco.sealTo, hsealed]
    rfl
  refine ⟨_, hpacket, ?_, ?_⟩
  · have hlen := checksumPrimitives_boxInPlace _ _ _ _ _ _ hsealed
    rw [Disco.length_pingText, List.length_replicate] at hlen
    simp only [Disco.wire, List.length_append, Vector.length_toList, hlen]
    rfl
  · have hnode : (Node.new P ⟨Vector.replicate 32 1⟩ (disco 4) 5).DiscoKeyed P (disco 4) :=
      ⟨rfl, rfl⟩
    refine handle_long_ping checksumPrimitives_boxLawful hnode hpacket ?_ _
    rw [List.length_replicate]
    decide

end Fw.Node

end Lando
