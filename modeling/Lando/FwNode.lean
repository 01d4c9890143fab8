/-
Lando/FwNode.lean

The firmware's WireGuard responder (`lando-fw/src/wg.rs`, `Node`).

A node answers disco pings and handshakes, decrypts what arrives in the tunnel
and encrypts what leaves it.  It has one peer slot: the peer's key, the session
with it, and `source`, the way back to it.  UDP and the relay feed the same
node; a packet comes with the `Source` it arrived from.

Two things are decided in the order of the writes inside `handle`.  A transport
packet records its source before it is authenticated (`handleTransport`), and
an initiation installs a session whatever its timestamp (`handleInitiation`).
The sections on return paths and on replays say exactly what follows from each.
-/
import Lando.Handshake
import Lando.Disco

namespace Lando.Fw

open Bytes

/-! ### The node -/

/-- An IPv4 endpoint. -/
structure Endpoint where
  addr : Vector UInt8 4
  port : UInt16
  deriving DecidableEq

/-- Where a packet came from, and so where its reply must go. -/
inductive Source
  | udp (ep : Endpoint)
  /-- Relayed, from the peer holding this node key. -/
  | derp (key : Key)
  deriving DecidableEq

/-- One peer we have a session with. -/
structure PeerSlot where
  key : NodePublic
  session : Session
  source : Source
  deriving DecidableEq

/-- The WireGuard responder, independent of how packets reach it. -/
structure Node where
  nodeKey : NodePrivate
  discoKey : DiscoPrivate
  discoPublic : DiscoPublic
  nonce : BoxNonce
  peer : Option PeerSlot
  nextIndex : UInt32
  deriving DecidableEq

/-- What handling a packet produced: the bytes written to `out`. -/
inductive Action
  /-- Ciphertext to send straight back the way the packet came. -/
  | reply (bytes : List UInt8)
  /-- A decrypted IP packet for the tunnel to route. -/
  | deliver (bytes : List UInt8)
  deriving DecidableEq

/-- The relay region that pongs over the relay report. -/
def derpRegion : ℕ := 28

/-- The size of the packet buffers. -/
def bufferLen : ℕ := 1600

/-- Increments a little-endian counter, byte by byte. -/
def bumpBytes : List UInt8 → List UInt8
  | [] => []
  | b :: bs => if b + 1 ≠ 0 then (b + 1) :: bs else (b + 1) :: bumpBytes bs

theorem length_bumpBytes (bs : List UInt8) : (bumpBytes bs).length = bs.length := by
  induction bs with
  | nil => rfl
  | cons b bs ih =>
    rw [bumpBytes]
    split_ifs
    · rfl
    · rw [List.length_cons, ih, List.length_cons]

/-- Increments a nonce. -/
def bump (nonce : BoxNonce) : BoxNonce :=
  ⟨(bumpBytes nonce.toList).toArray, by
    rw [List.size_toArray, length_bumpBytes, Vector.length_toList]⟩

namespace Node

/-- `Node::new`: nobody is known yet; the seed gives the first nonce and an odd index. -/
def new (P : Primitives) (nodeKey : NodePrivate) (discoKey : DiscoPrivate)
    (indexSeed : UInt32) : Node where
  nodeKey := nodeKey
  discoKey := discoKey
  discoPublic := discoKey.public P
  nonce := read 24 (toLE 4 indexSeed.toNat ++ List.replicate 20 0) 0
  peer := none
  nextIndex := indexSeed ||| 1

/-- What a pong reports as the address of the ping. -/
def pongAddress : Source → Vector UInt8 4 × UInt16
  | .udp ep => (ep.addr, ep.port)
  -- over a relay there is no such address, but a placeholder for the region
  | .derp _ => (#v[127, 3, 3, 40], .ofNat derpRegion)

/-- The disco arm of `handle`: a ping that can be opened into 256 bytes is answered
with a pong. -/
def handleDisco (P : Primitives) (node : Node) (header : Disco.Header) (sealed : List UInt8)
    (source : Source) (outLen : ℕ) : Node × Option Action :=
  match Disco.open P node.discoKey.bytes header sealed 256 with
  | .error _ => (node, none)
  | .ok plain =>
      match Disco.parsePing plain with
      | .error _ => (node, none)
      | .ok ping =>
          let (src, port) := pongAddress source
          -- bump before use, so that no two pongs share a nonce
          let node := { node with nonce := bump node.nonce }
          match Disco.writePong P node.discoKey.bytes node.discoPublic header.sender node.nonce
              ping.txId src port outLen with
          | .error _ => (node, none)
          | .ok pong => (node, some (.reply pong))

/-- `wrapping_add(2).max(1)`. -/
def indexAfter (index : UInt32) : UInt32 := max (index + 2) 1

/-- The ephemeral of a handshake: the index and the packet's length. -/
def ephemeralSeed (index : UInt32) (packetLen : ℕ) : Key :=
  read 32 (toLE 4 index.toNat ++ toLE 4 (packetLen % 2 ^ 32) ++ List.replicate 24 0) 0

/-- The initiation arm of `handle`: an initiation that is accepted uses up an index,
and its session is installed if the response fits. -/
def handleInitiation (P : Primitives) (node : Node) (packet : List UInt8) (source : Source)
    (outLen : ℕ) : Node × Option Action :=
  match Responder.consumeInitiation P node.nodeKey packet with
  | .error _ => (node, none)
  | .ok (responder, learned) =>
      let index := node.nextIndex
      let node := { node with nextIndex := indexAfter node.nextIndex }
      let ephemeral := NodePrivate.fromBytes (ephemeralSeed index packet.length)
      match responder.respond P ephemeral index with
      | .error _ => (node, none)
      | .ok (response, keys) =>
          if outLen < response.length then (node, none)
          else
            let slot : PeerSlot := ⟨learned.peerStatic, Session.new keys, source⟩
            ({ node with peer := some slot }, some (.reply response))

/-- The rest of the transport arm, with the packet decrypted: a TSMP ping is
answered, and anything else is traffic for the LAN. -/
def handlePlain (P : Primitives) (node : Node) (slot : PeerSlot) (plain : List UInt8)
    (outLen : ℕ) : Node × Option Action :=
  match Tsmp.parsePing plain with
  | some ping =>
      match Tsmp.writePong ping 64 with
      | none => ({ node with peer := some slot }, none)
      | some pong =>
          match slot.session.encrypt P.toAead pong outLen with
          | (session, .error _) =>
              ({ node with peer := some { slot with session := session } }, none)
          | (session, .ok sent) =>
              ({ node with peer := some { slot with session := session } }, some (.reply sent))
  | none =>
      if outLen < plain.length then ({ node with peer := some slot }, none)
      else ({ node with peer := some slot }, some (.deliver plain))

/-- The transport arm of `handle`: the source is recorded before the length and the
tag are looked at. -/
def handleTransport (P : Primitives) (node : Node) (packet : List UInt8) (source : Source)
    (outLen : ℕ) : Node × Option Action :=
  match node.peer with
  | none => (node, none)
  | some slot =>
      -- a peer that moved between transports keeps its session
      let slot := { slot with source := source }
      if bufferLen < packet.length then ({ node with peer := some slot }, none)
      else
        match slot.session.decrypt P.toAead packet with
        | (session, .error _) => ({ node with peer := some { slot with session := session } }, none)
        | (session, .ok plain) =>
            node.handlePlain P { slot with session := session } plain outLen

/-- Handles one inbound packet, with room for `outLen` bytes of reply.  Disco
and WireGuard share a transport; the magic tells them apart. -/
def handle (P : Primitives) (node : Node) (packet : List UInt8) (source : Source) (outLen : ℕ) :
    Node × Option Action :=
  match Disco.parseHeader packet with
  | .ok (header, sealed) => node.handleDisco P header sealed source outLen
  | .error _ =>
      match packet.head? with
      | none => (node, none)
      | some kind =>
          if kind = msgInitiation then node.handleInitiation P packet source outLen
          else if kind = msgTransport then node.handleTransport P packet source outLen
          else (node, none)

/-- Encrypts a packet from the tunnel for the peer, reporting where to send
it. -/
def encrypt (P : Primitives) (node : Node) (packet : List UInt8) (outLen : ℕ) :
    Node × Option (List UInt8 × Source) :=
  match node.peer with
  | none => (node, none)
  | some slot =>
      match slot.session.encrypt P.toAead packet outLen with
      | (session, .error _) => ({ node with peer := some { slot with session := session } }, none)
      | (session, .ok cipher) =>
          ({ node with peer := some { slot with session := session } },
            some (cipher, slot.source))

end Node

/-! ### What one packet can do -/

namespace Node

variable {P : Primitives} {node : Node} {packet : List UInt8} {source : Source} {outLen : ℕ}

/-- A packet that starts like a WireGuard message has no disco header. -/
theorem parseHeader_of_head {b : UInt8} (h : packet.head? = some b)
    (hb : b = msgInitiation ∨ b = msgTransport) :
    Disco.parseHeader packet = .error .notDisco := by
  have hmagic : packet.take Disco.magic.length ≠ Disco.magic := by
    intro he
    have hhead : packet.head? = some 0x54 := by
      cases packet with
      | nil => cases h
      | cons c cs =>
        obtain ⟨rfl, -⟩ := List.cons.inj he
        rfl
    rw [h] at hhead
    rcases hb with rfl | rfl <;> cases hhead
  rw [Disco.parseHeader, if_pos (Or.inr hmagic)]

theorem handle_initiation (h : packet.head? = some msgInitiation) :
    node.handle P packet source outLen = node.handleInitiation P packet source outLen := by
  unfold handle
  rw [parseHeader_of_head h (.inl rfl), h]
  rfl

theorem handle_transport (h : packet.head? = some msgTransport) :
    node.handle P packet source outLen = node.handleTransport P packet source outLen := by
  unfold handle
  rw [parseHeader_of_head h (.inr rfl), h]
  rfl

/-- Anything else leaves all but the disco nonce. -/
theorem handle_other (P : Primitives) (node : Node) (source : Source) (outLen : ℕ)
    (h₁ : packet.head? ≠ some msgInitiation) (h₂ : packet.head? ≠ some msgTransport) :
    ∃ nonce, (node.handle P packet source outLen).1 = { node with nonce := nonce } := by
  unfold handle
  rcases hd : Disco.parseHeader packet with e | ⟨header, sealed⟩
  · refine ⟨node.nonce, ?_⟩
    rcases hh : packet.head? with - | b
    · rfl
    · rw [hh] at h₁ h₂
      simp only
      rw [if_neg fun hb => h₁ (by rw [hb]), if_neg fun hb => h₂ (by rw [hb])]
  · simp only [handleDisco]
    rcases Disco.open P node.discoKey.bytes header sealed 256 with e | plain
    · exact ⟨node.nonce, rfl⟩
    · simp only
      rcases Disco.parsePing plain with e | ping
      · exact ⟨node.nonce, rfl⟩
      · refine ⟨bump node.nonce, ?_⟩
        simp only
        split <;> rfl

/-- An initiation is refused, or answered with a session under the next
index. -/
theorem handleInitiation_cases (hP : P.Lawful) (node : Node) (packet : List UInt8)
    (source : Source) :
    ((Responder.consumeInitiation P node.nodeKey packet).isOk = false ∧
      node.handleInitiation P packet source bufferLen = (node, none)) ∨
    ∃ responder learned response keys,
      Responder.consumeInitiation P node.nodeKey packet = .ok (responder, learned) ∧
      keys.localIndex = node.nextIndex ∧
      node.handleInitiation P packet source bufferLen =
        ({ node with
            nextIndex := indexAfter node.nextIndex
            peer := some ⟨learned.peerStatic, Session.new keys, source⟩ },
          some (.reply response)) := by
  unfold handleInitiation
  rcases hc : Responder.consumeInitiation P node.nodeKey packet with e | ⟨responder, learned⟩
  · exact .inl ⟨rfl, rfl⟩
  · right
    obtain ⟨response, s, st, k, -, hrespond, hlayout, -⟩ := Responder.respond_eq hP responder
      (NodePrivate.fromBytes (ephemeralSeed node.nextIndex packet.length)) node.nextIndex
    obtain ⟨keys, hkeys, hindex⟩ : ∃ keys, responder.respond P
        (NodePrivate.fromBytes (ephemeralSeed node.nextIndex packet.length)) node.nextIndex
          = .ok (response, keys) ∧ keys.localIndex = node.nextIndex := ⟨_, hrespond, rfl⟩
    have hlen : ¬ bufferLen < response.length := by
      rw [hlayout.length]
      decide
    refine ⟨responder, learned, response, keys, rfl, hindex, ?_⟩
    simp only [hkeys, if_neg hlen]

/-- An accepted initiation is answered, and its peer takes the slot. -/
theorem handle_accepted (hP : P.Lawful) {responder : Responder} {learned : Initiation}
    (h : Responder.consumeInitiation P node.nodeKey packet = .ok (responder, learned))
    (source : Source) :
    ∃ slot response,
      node.handle P packet source bufferLen =
        ({ node with nextIndex := indexAfter node.nextIndex, peer := some slot },
          some (.reply response)) ∧
      slot.key = learned.peerStatic ∧ slot.source = source ∧
      slot.session.localIndex = node.nextIndex ∧ slot.session.sendCounter = 0 := by
  rw [handle_initiation (Responder.head_of_consumeInitiation h)]
  rcases handleInitiation_cases hP node packet source with
    ⟨hc, -⟩ | ⟨responder', learned', response, keys, hc, hindex, he⟩
  · rw [h] at hc
    cases hc
  · rw [h] at hc
    obtain ⟨-, rfl⟩ := Prod.mk.inj (Except.ok.inj hc)
    exact ⟨⟨learned.peerStatic, Session.new keys, source⟩, response, he, rfl, rfl, hindex, rfl⟩

theorem handlePlain_peer (P : Primitives) (node : Node) (slot : PeerSlot) (plain : List UInt8)
    (outLen : ℕ) :
    ∃ session, session.localIndex = slot.session.localIndex ∧
      (node.handlePlain P slot plain outLen).1 =
        { node with peer := some { slot with session := session } } := by
  unfold handlePlain
  rcases Tsmp.parsePing plain with - | ping
  · refine ⟨slot.session, rfl, ?_⟩
    simp only
    split_ifs <;> rfl
  simp only
  rcases Tsmp.writePong ping 64 with - | pong
  · exact ⟨slot.session, rfl, rfl⟩
  simp only
  rcases Session.encrypt_cases P.toAead slot.session pong outLen with
    ⟨e, hs⟩ | ⟨body, tag, -, -, hs⟩
  · rw [hs]
    exact ⟨slot.session, rfl, rfl⟩
  · rw [hs]
    exact ⟨{ slot.session with sendCounter := slot.session.sendCounter + 1 }, rfl, rfl⟩

/-- A transport packet moves the return path, whatever it is worth, and
changes the session only if it decrypts. -/
theorem handleTransport_peer (P : Primitives) (node : Node) (packet : List UInt8)
    (source : Source) (outLen : ℕ) :
    (node.peer = none ∧ node.handleTransport P packet source outLen = (node, none)) ∨
    ∃ slot session, node.peer = some slot ∧ session.localIndex = slot.session.localIndex ∧
      (node.handleTransport P packet source outLen).1 =
        { node with peer := some ⟨slot.key, session, source⟩ } ∧
      ((slot.session.decrypt P.toAead packet).2.isOk = false → session = slot.session) ∧
      (bufferLen < packet.length → session = slot.session) := by
  unfold handleTransport
  rcases hpeer : node.peer with - | slot
  · exact .inl ⟨rfl, rfl⟩
  right
  simp only
  by_cases hlen : bufferLen < packet.length
  · rw [if_pos hlen]
    exact ⟨slot, slot.session, rfl, rfl, rfl, fun _ => rfl, fun _ => rfl⟩
  rw [if_neg hlen]
  rcases Session.decrypt_cases P.toAead slot.session packet with
    ⟨e, he⟩ | ⟨body, tag, plain, -, -, -, he⟩
  · rw [he]
    exact ⟨slot, slot.session, rfl, rfl, rfl, fun _ => rfl, fun h => absurd h hlen⟩
  · rw [he]
    simp only
    obtain ⟨session, hindex, hs⟩ := handlePlain_peer P node ⟨slot.key, { slot.session with
      replay := (slot.session.replay.accept (packetCounter packet)).1 }, source⟩ plain outLen
    refine ⟨slot, session, rfl, hindex, hs, fun h => ?_, fun h => absurd h hlen⟩
    rw [he] at h
    cases h

/-- Encrypting changes nothing but the session, and not its index. -/
theorem encrypt_peer (P : Primitives) (node : Node) (packet : List UInt8) (outLen : ℕ) :
    (node.peer = none ∧ node.encrypt P packet outLen = (node, none)) ∨
    ∃ slot session out, node.peer = some slot ∧
      session.localIndex = slot.session.localIndex ∧
      node.encrypt P packet outLen =
        ({ node with peer := some { slot with session := session } }, out) ∧
      ∀ cipher dst, out = some (cipher, dst) →
        dst = slot.source ∧ slot.session.Fits packet outLen := by
  unfold encrypt
  rcases hpeer : node.peer with - | slot
  · exact .inl ⟨rfl, rfl⟩
  right
  rcases Session.encrypt_cases P.toAead slot.session packet outLen with
    ⟨e, hs⟩ | ⟨body, tag, hfits, -, hs⟩
  · simp only [hs]
    exact ⟨slot, slot.session, none, rfl, rfl, rfl, nofun⟩
  · simp only [hs]
    refine ⟨slot, { slot.session with sendCounter := slot.session.sendCounter + 1 }, _, rfl, rfl,
      rfl, ?_⟩
    intro cipher dst he
    exact ⟨(Prod.mk.inj (Option.some.inj he)).2.symm, hfits⟩

/-- What fits is encrypted, and addressed to the return path. -/
theorem encrypt_of_fits (hP : P.Lawful) {slot : PeerSlot} (hpeer : node.peer = some slot)
    (h : slot.session.Fits packet bufferLen) :
    ∃ node' cipher, node.encrypt P packet bufferLen = (node', some (cipher, slot.source)) := by
  obtain ⟨cipher, he⟩ := Session.encrypt_of_fits hP (by decide) h
  refine ⟨{ node with peer := some { slot with session :=
    { slot.session with sendCounter := slot.session.sendCounter + 1 } } }, cipher, ?_⟩
  simp only [encrypt, hpeer, he]

theorem length_handleDisco (hB : P.BoxInPlace) {header : Disco.Header} {sealed bytes : List UInt8}
    {node' : Node}
    (h : node.handleDisco P header sealed source outLen = (node', some (.reply bytes))) :
    bytes.length ≤ outLen := by
  unfold handleDisco at h
  rcases ho : Disco.open P node.discoKey.bytes header sealed 256 with e | plain
  · rw [ho] at h
    cases h
  rw [ho] at h
  rcases hp : Disco.parsePing plain with e | ping
  · simp only [hp] at h
    cases h
  simp only [hp] at h
  split at h
  · cases h
  next pong hpong =>
    obtain ⟨-, hreply⟩ := Prod.mk.inj h
    obtain rfl := Action.reply.inj (Option.some.inj hreply)
    exact Disco.length_writePong hB hpong

theorem length_handleInitiation {bytes : List UInt8} {node' : Node}
    (h : node.handleInitiation P packet source outLen = (node', some (.reply bytes))) :
    bytes.length ≤ outLen := by
  unfold handleInitiation at h
  rcases hc : Responder.consumeInitiation P node.nodeKey packet with e | ⟨responder, learned⟩
  · rw [hc] at h
    cases h
  rw [hc] at h
  rcases hr : responder.respond P
      (NodePrivate.fromBytes (ephemeralSeed node.nextIndex packet.length)) node.nextIndex
    with e | ⟨response, keys⟩
  · simp only [hr] at h
    cases h
  simp only [hr] at h
  split_ifs at h with hlen
  · cases h
  · obtain ⟨-, hreply⟩ := Prod.mk.inj h
    obtain rfl := Action.reply.inj (Option.some.inj hreply)
    exact Nat.not_lt.mp hlen

theorem length_handlePlain (hP : P.Lawful) {slot : PeerSlot} {plain bytes : List UInt8}
    {node' : Node} (h : node.handlePlain P slot plain outLen = (node', some (.reply bytes))) :
    bytes.length ≤ outLen := by
  unfold handlePlain at h
  rcases hp : Tsmp.parsePing plain with - | ping
  · simp only [hp] at h
    split_ifs at h <;> cases h
  simp only [hp] at h
  rcases hw : Tsmp.writePong ping 64 with - | pong
  · simp only [hw] at h
    cases h
  simp only [hw] at h
  rcases he : slot.session.encrypt P.toAead pong outLen with ⟨session, e | sent⟩
  · simp only [he] at h
    cases h
  · simp only [he] at h
    obtain ⟨-, hreply⟩ := Prod.mk.inj h
    obtain rfl := Action.reply.inj (Option.some.inj hreply)
    exact Session.length_encrypt hP he

/-- A reply stays in the buffer. -/
theorem length_reply (hP : P.Lawful) (hB : P.BoxInPlace) {node' : Node} {bytes : List UInt8}
    (h : node.handle P packet source outLen = (node', some (.reply bytes))) :
    bytes.length ≤ outLen := by
  unfold handle at h
  rcases hd : Disco.parseHeader packet with e | ⟨header, sealed⟩
  swap
  · rw [hd] at h
    exact length_handleDisco hB h
  rcases hh : packet.head? with - | kind
  · simp only [hd, hh] at h
    cases h
  simp only [hd, hh] at h
  split_ifs at h with h₁ h₂
  · exact length_handleInitiation h
  · unfold handleTransport at h
    rcases hpeer : node.peer with - | slot
    · simp only [hpeer] at h
      cases h
    simp only [hpeer] at h
    split_ifs at h
    · cases h
    rcases he : slot.session.decrypt P.toAead packet with ⟨session, e | plain⟩
    · simp only [he] at h
      cases h
    · simp only [he] at h
      exact length_handlePlain hP h
  · cases h

end Node

/-! ### Runs -/

/-- What happens to a node: a packet arrives, or the tunnel has one to send. -/
inductive NodeEvent
  | inbound (packet : List UInt8) (source : Source)
  | outbound (packet : List UInt8)
  deriving DecidableEq

namespace Node

/-- One event, with the firmware's buffers. -/
def step (P : Primitives) (node : Node) : NodeEvent → Node
  | .inbound packet source => (node.handle P packet source bufferLen).1
  | .outbound packet => (node.encrypt P packet bufferLen).1

/-- The node after a list of events. -/
def run (P : Primitives) (node : Node) (events : List NodeEvent) : Node :=
  events.foldl (step P) node

variable {P : Primitives}

@[simp] theorem run_nil (node : Node) : node.run P [] = node := rfl

@[simp] theorem run_cons (node : Node) (e : NodeEvent) (events : List NodeEvent) :
    node.run P (e :: events) = (node.step P e).run P events := rfl

/-- A step keeps the key, and moves the index and the slot in one of four
ways. -/
theorem step_cases (hP : P.Lawful) (node : Node) (e : NodeEvent) :
    (node.step P e).nodeKey = node.nodeKey ∧
    (((node.step P e).peer = node.peer ∧ (node.step P e).nextIndex = node.nextIndex) ∨
      (∃ learned keys source, (node.step P e).nextIndex = indexAfter node.nextIndex ∧
        keys.localIndex = node.nextIndex ∧
        (node.step P e).peer = some ⟨learned, Session.new keys, source⟩) ∨
      (∃ slot session source, node.peer = some slot ∧
        session.localIndex = slot.session.localIndex ∧
        (node.step P e).nextIndex = node.nextIndex ∧
        (node.step P e).peer = some ⟨slot.key, session, source⟩)) := by
  cases e with
  | outbound packet =>
    rcases encrypt_peer P node packet bufferLen with
      ⟨-, he⟩ | ⟨slot, session, out, hpeer, hindex, he, -⟩
    · rw [step, he]
      exact ⟨rfl, .inl ⟨rfl, rfl⟩⟩
    · rw [step, he]
      exact ⟨rfl, .inr (.inr ⟨slot, session, slot.source, hpeer, hindex, rfl, rfl⟩)⟩
  | inbound packet source =>
    rw [step]
    by_cases h₁ : packet.head? = some msgInitiation
    · rw [handle_initiation h₁]
      rcases handleInitiation_cases hP node packet source with
        ⟨-, he⟩ | ⟨responder, learned, response, keys, -, hindex, he⟩
      · rw [he]
        exact ⟨rfl, .inl ⟨rfl, rfl⟩⟩
      · rw [he]
        exact ⟨rfl, .inr (.inl ⟨learned.peerStatic, keys, source, rfl, hindex, rfl⟩)⟩
    by_cases h₂ : packet.head? = some msgTransport
    · rw [handle_transport h₂]
      rcases handleTransport_peer P node packet source bufferLen with
        ⟨-, he⟩ | ⟨slot, session, hpeer, hindex, he, -, -⟩
      · rw [he]
        exact ⟨rfl, .inl ⟨rfl, rfl⟩⟩
      · rw [he]
        exact ⟨rfl, .inr (.inr ⟨slot, session, source, hpeer, hindex, rfl, rfl⟩)⟩
    · obtain ⟨nonce, he⟩ := handle_other P node source bufferLen h₁ h₂
      rw [he]
      exact ⟨rfl, .inl ⟨rfl, rfl⟩⟩

end Node

/-! ### Return paths -/

namespace Node

/-- The packet is authentic: an initiation that is accepted, or a transport
packet that fits the buffer and decrypts under the session. -/
def authenticates (P : Primitives) (node : Node) (packet : List UInt8) : Bool :=
  match packet.head? with
  | none => false
  | some kind =>
      if kind = msgInitiation then (Responder.consumeInitiation P node.nodeKey packet).isOk
      else if kind = msgTransport then
        match node.peer with
        | none => false
        | some slot =>
            decide (packet.length ≤ bufferLen) && (slot.session.decrypt P.toAead packet).2.isOk
      else false

/-- The packet is not taken for a transport packet, or there is no slot, or it
comes from the source that the slot has recorded. -/
def KeepsPath (node : Node) (packet : List UInt8) (source : Source) : Prop :=
  packet.head? = some msgTransport → ∀ slot, node.peer = some slot → slot.source = source

variable {P : Primitives}

/-- **Packets that are not authentic.**  They leave the slot as it is exactly
when they keep the return path. -/
theorem handle_unauthentic_iff {node : Node} {packet : List UInt8} (source : Source) (outLen : ℕ)
    (h : node.authenticates P packet = false) :
    (node.handle P packet source outLen).1.peer = node.peer ↔ KeepsPath node packet source := by
  -- an initiation without a key of ours leaves the slot alone
  by_cases h₁ : packet.head? = some msgInitiation
  · have hne : packet.head? ≠ some msgTransport := by
      rw [h₁]
      decide
    rw [handle_initiation h₁]
    refine ⟨fun _ ht => absurd ht hne, fun _ => ?_⟩
    rw [authenticates, h₁] at h
    simp only [if_true] at h
    unfold handleInitiation
    rcases hc : Responder.consumeInitiation P node.nodeKey packet with e | res
    · rfl
    · rw [hc] at h
      cases h
  by_cases h₂ : packet.head? = some msgTransport
  · rw [handle_transport h₂]
    rcases handleTransport_peer P node packet source outLen with
      ⟨hpeer, he⟩ | ⟨slot, session, hpeer, -, he, hsession, hlong⟩
    · rw [he]
      refine ⟨fun _ _ slot hs => ?_, fun _ => rfl⟩
      rw [hpeer] at hs
      cases hs
    · -- a session is stored back as it was, so only the source can change
      have hsame : session = slot.session := by
        rw [authenticates, h₂] at h
        simp only [show msgTransport ≠ msgInitiation by decide, if_false, if_true, hpeer] at h
        rcases Nat.lt_or_ge bufferLen packet.length with hlt | hge
        · exact hlong hlt
        · rw [decide_eq_true hge, Bool.true_and] at h
          exact hsession h
      rw [he, hpeer, hsame]
      constructor
      · intro heq _ slot' hs
        obtain rfl := Option.some.inj (hpeer.symm.trans hs)
        exact (congrArg PeerSlot.source (Option.some.inj heq)).symm
      · intro hkeep
        rw [← hkeep h₂ slot hpeer]
  · obtain ⟨nonce, he⟩ := handle_other P node source outLen h₁ h₂
    rw [he]
    exact ⟨fun _ ht => absurd ht h₂, fun _ => rfl⟩

/-- An authentic packet records the way back to where it came from. -/
theorem handle_authentic (hP : P.Lawful) {node : Node} {packet : List UInt8} (source : Source)
    (h : node.authenticates P packet = true) :
    ∃ slot, (node.handle P packet source bufferLen).1.peer = some slot ∧ slot.source = source := by
  unfold authenticates at h
  rcases hh : packet.head? with - | kind
  · rw [hh] at h
    cases h
  rw [hh] at h
  simp only at h
  split_ifs at h with h₁ h₂
  · rcases hc : Responder.consumeInitiation P node.nodeKey packet with e | ⟨responder, learned⟩
    · rw [hc] at h
      cases h
    · obtain ⟨slot, response, he, -, hsource, -, -⟩ := handle_accepted hP hc source
      rw [he]
      exact ⟨slot, rfl, hsource⟩
  · subst h₂
    rw [handle_transport hh]
    rcases handleTransport_peer P node packet source bufferLen with
      ⟨hpeer, -⟩ | ⟨slot, session, -, -, he, -, -⟩
    · rw [hpeer] at h
      cases h
    · rw [he]
      exact ⟨_, rfl, rfl⟩

/-- Where the last authentic packet came from, after one event. -/
def newest (P : Primitives) (node : Node) (last : Option Source) : NodeEvent → Option Source
  | .inbound packet source => if node.authenticates P packet then some source else last
  | .outbound _ => last

/-- Where the last authentic packet came from, `last` being what it was before
the run. -/
def lastAuthentic (P : Primitives) (node : Node) (last : Option Source) :
    List NodeEvent → Option Source
  | [] => last
  | e :: events => (node.step P e).lastAuthentic P (node.newest P last e) events

/-- Every packet of the run is authentic or keeps the return path. -/
def Undisturbed (P : Primitives) (node : Node) : List NodeEvent → Prop
  | [] => True
  | e :: events =>
      (∀ packet source, e = .inbound packet source →
        node.authenticates P packet = true ∨ KeepsPath node packet source) ∧
      (node.step P e).Undisturbed P events

/-- In an undisturbed run the slot's source is that of the last authentic
packet. -/
theorem source_run (hP : P.Lawful) {node : Node} {events : List NodeEvent} {last : Option Source}
    (h : node.peer.map PeerSlot.source = last) (hrun : node.Undisturbed P events) :
    (node.run P events).peer.map PeerSlot.source = node.lastAuthentic P last events := by
  induction events generalizing node last with
  | nil => exact h
  | cons e events ih =>
    obtain ⟨hstep, hrest⟩ := hrun
    rw [run_cons, lastAuthentic]
    refine ih ?_ hrest
    cases e with
    | outbound packet =>
      rw [← h, step, newest]
      rcases encrypt_peer P node packet bufferLen with
        ⟨-, he⟩ | ⟨slot, session, out, hpeer, -, he, -⟩
      · rw [he]
      · rw [he, hpeer]
        rfl
    | inbound packet source =>
      cases hauth : node.authenticates P packet with
      | true =>
        obtain ⟨slot, hpeer, hsource⟩ := handle_authentic hP source hauth
        rw [step, hpeer, Option.map_some, hsource, newest, if_pos hauth]
      | false =>
        have hkeep : KeepsPath node packet source := by
          rcases hstep packet source rfl with ha | hk
          · rw [hauth] at ha
            cases ha
          · exact hk
        rw [step, (handle_unauthentic_iff source bufferLen hauth).mpr hkeep, h, newest,
          if_neg (by rw [hauth]; exact Bool.false_ne_true)]

theorem run_append (node : Node) (before after : List NodeEvent) :
    node.run P (before ++ after) = (node.run P before).run P after :=
  List.foldl_append

theorem Undisturbed.of_append {node : Node} {before after : List NodeEvent}
    (h : node.Undisturbed P (before ++ after)) : (node.run P before).Undisturbed P after := by
  induction before generalizing node with
  | nil => exact h
  | cons e before ih => exact ih h.2

/-- A peer that knows the node's key gets a session, from any state. -/
theorem handle_new_initiation (hP : P.Lawful) (hD : P.DhCommutes) (node : Node)
    (i ei : NodePrivate) (xi : UInt32) (ts : Tai64n) (source : Source) :
    ∃ initiator msg responder slot response,
      Initiator.new P i (node.nodeKey.public P) ei xi ts = .ok (initiator, msg) ∧
      Responder.consumeInitiation P node.nodeKey msg =
        .ok (responder, ⟨i.public P, ts, xi⟩) ∧
      node.handle P msg source bufferLen =
        ({ node with nextIndex := indexAfter node.nextIndex, peer := some slot },
          some (.reply response)) ∧
      slot.source = source ∧ slot.session.sendCounter = 0 := by
  obtain ⟨initiator, msg, responder, hnew, -, hconsume⟩ :=
    Initiator.new_accepted hP hD i node.nodeKey ei xi ts
  obtain ⟨slot, response, he, -, hsource, -, hcounter⟩ := handle_accepted hP hconsume source
  exact ⟨initiator, msg, responder, slot, response, hnew, hconsume, he, hsource, hcounter⟩

/-- **Unauthenticated packets and the slot.**  A packet that is not authentic
leaves the slot as it is exactly when it is not taken for a transport packet,
or there is no slot, or it comes from the recorded source.  In every run in
which this holds of all packets that are not authentic, none of them changes
the slot, and whatever is encrypted afterwards is addressed to where the last
authentic packet came from. -/
theorem unauthentic_keeps_slot_iff (hP : P.Lawful) :
    (∀ (node : Node) (packet : List UInt8) (source : Source) (outLen : ℕ),
      node.authenticates P packet = false →
        ((node.handle P packet source outLen).1.peer = node.peer ↔
          KeepsPath node packet source)) ∧
    (∀ (nodeKey : NodePrivate) (discoKey : DiscoPrivate) (indexSeed : UInt32)
      (events : List NodeEvent), (Node.new P nodeKey discoKey indexSeed).Undisturbed P events →
      (∀ before packet source after, events = before ++ .inbound packet source :: after →
        ((Node.new P nodeKey discoKey indexSeed).run P before).authenticates P packet = false →
        ((Node.new P nodeKey discoKey indexSeed).run P
          (before ++ [.inbound packet source])).peer =
            ((Node.new P nodeKey discoKey indexSeed).run P before).peer) ∧
      ∀ packet outLen node' cipher dst,
        ((Node.new P nodeKey discoKey indexSeed).run P events).encrypt P packet outLen =
          (node', some (cipher, dst)) →
        (Node.new P nodeKey discoKey indexSeed).lastAuthentic P none events = some dst) := by
  refine ⟨fun node packet source outLen => handle_unauthentic_iff source outLen, ?_⟩
  intro nodeKey discoKey indexSeed events hrun
  refine ⟨?_, ?_⟩
  · rintro before packet source after rfl hauth
    have hstep := (Undisturbed.of_append hrun).1 packet source rfl
    rw [hauth] at hstep
    rw [run_append]
    refine (handle_unauthentic_iff source bufferLen hauth).mpr ?_
    rcases hstep with hf | hkeep
    · cases hf
    · exact hkeep
  · intro packet outLen node' cipher dst he
    have hnone : (Node.new P nodeKey discoKey indexSeed).peer.map PeerSlot.source = none := rfl
    have hsource := source_run hP hnone hrun
    rcases encrypt_peer P _ packet outLen with
      ⟨-, he'⟩ | ⟨slot, session, out, hpeer, -, he', hdst⟩
    · rw [he] at he'
      cases he'
    · rw [he] at he'
      obtain ⟨-, rfl⟩ := Prod.mk.inj he'
      rw [(hdst cipher dst rfl).1, ← hsource, hpeer]
      rfl

/-- A peer sets up a session over UDP.  Rubbish from the same place leaves the
slot alone, and packets go on to it; from the relay it would not. -/
theorem unauthentic_keeps_slot_iff_session :
    let P := checksumPrimitives
    let key (n : UInt8) : NodePrivate := ⟨Vector.replicate 32 n⟩
    let start := Node.new P (key 2) ⟨Vector.replicate 32 4⟩ 9
    let home : Source := .udp ⟨#v[192, 168, 1, 2], 41641⟩
    let relay : Source := .derp (Vector.replicate 32 6)
    P.Lawful ∧ ∃ msg slot node' cipher,
      let node := start.run P [.inbound msg home]
      let events := [.inbound msg home] ++ [.inbound [4] home]
      node.peer = some slot ∧ node.authenticates P [4] = false ∧
      ((node.handle P [4] home bufferLen).1.peer = node.peer ↔ KeepsPath node [4] home) ∧
      (node.handle P [4] relay bufferLen).1.peer ≠ node.peer ∧
      start.Undisturbed P events ∧ (start.run P events).peer = node.peer ∧
      (start.run P events).encrypt P [1] bufferLen = (node', some (cipher, home)) ∧
      start.lastAuthentic P none events = some home := by
  intro P key start home relay
  obtain ⟨-, msg, responder, slot, response, -, hconsume, he, hsource, hcounter⟩ :=
    handle_new_initiation checksumAead_lawful checksumPrimitives_dhCommutes start (key 1) (key 3) 7
      ⟨Vector.replicate 12 5⟩ home
  have hpeer : (start.run P [.inbound msg home]).peer = some slot := by
    rw [run_cons, run_nil, step, he]
  have hrubbish : (start.run P [.inbound msg home]).authenticates P [4] = false := by
    rw [run_cons, run_nil, step, he]
    rfl
  -- the initiation is authentic, and the rubbish keeps the path
  have hrun : start.Undisturbed P ([.inbound msg home] ++ [.inbound [4] home]) := by
    refine ⟨fun packet source hin => .inl ?_, fun packet source hin => .inr ?_, trivial⟩
    · obtain ⟨rfl, rfl⟩ := NodeEvent.inbound.inj hin
      rw [authenticates, Responder.head_of_consumeInitiation hconsume]
      exact congrArg Except.isOk hconsume
    · obtain ⟨rfl, rfl⟩ := NodeEvent.inbound.inj hin
      intro _ slot' hs
      obtain rfl := Option.some.inj (hpeer.symm.trans hs)
      exact hsource
  obtain ⟨hstep, hruns⟩ := unauthentic_keeps_slot_iff (P := checksumPrimitives) checksumAead_lawful
  obtain ⟨hkept, haddressed⟩ := hruns _ _ _ _ hrun
  have hsame := hkept [.inbound msg home] [4] home [] rfl hrubbish
  have hfits : slot.session.Fits [1] bufferLen := ⟨by rw [hcounter]; decide, by decide⟩
  obtain ⟨node', cipher, hcipher⟩ := encrypt_of_fits (P := checksumPrimitives)
    checksumAead_lawful (hsame.trans hpeer) hfits
  rw [hsource] at hcipher
  refine ⟨checksumAead_lawful, msg, slot, node', cipher, hpeer, hrubbish,
    hstep _ [4] home bufferLen hrubbish, ?_, hrun, hsame, hcipher,
    haddressed [1] bufferLen node' cipher home hcipher⟩
  rw [Ne, hstep _ [4] relay bufferLen hrubbish]
  intro hkeep
  exact nomatch hsource.symm.trans (hkeep rfl slot hpeer)

/-- A peer sets up a session over UDP; then one byte of rubbish from a client of
the relay is enough to move its return path. -/
theorem source_moved_by_rubbish :
    let P := checksumPrimitives
    let key (n : UInt8) : NodePrivate := ⟨Vector.replicate 32 n⟩
    let home : Source := .udp ⟨#v[192, 168, 1, 2], 41641⟩
    let relay : Source := .derp (Vector.replicate 32 6)
    ∃ initiator msg,
      Initiator.new P (key 1) ((key 2).public P) (key 3) 7 ⟨Vector.replicate 12 5⟩ =
        .ok (initiator, msg) ∧
      let node := (Node.new P (key 2) ⟨Vector.replicate 32 4⟩ 9).run P [.inbound msg home]
      node.authenticates P [4] = false ∧
      (node.handle P [4] relay bufferLen).2 = none ∧
      node.peer.map PeerSlot.source = some home ∧
      (node.handle P [4] relay bufferLen).1.peer.map PeerSlot.source = some relay ∧
      (node.handle P [4] relay bufferLen).1.peer ≠ node.peer := by
  intro P key home relay
  obtain ⟨initiator, msg, -, slot, response, hnew, -, he, hsource, -⟩ :=
    handle_new_initiation checksumAead_lawful checksumPrimitives_dhCommutes
      (Node.new P (key 2) ⟨Vector.replicate 32 4⟩ 9) (key 1) (key 3) 7 ⟨Vector.replicate 12 5⟩ home
  refine ⟨initiator, msg, hnew, ?_⟩
  rw [run_cons, run_nil, step, he]
  have hmoved : (some relay : Option Source) ≠ some slot.source := by
    rw [hsource]
    exact fun h => nomatch Option.some.inj h
  exact ⟨rfl, rfl, congrArg some hsource, rfl,
    fun h => hmoved (congrArg (Option.map PeerSlot.source) h)⟩

end Node

/-! ### Replayed initiations -/

namespace Node

variable {P : Primitives}

/-- The next index is another one. -/
theorem indexAfter_ne (index : UInt32) : indexAfter index ≠ index := by
  intro h
  have hlt := index.toNat_lt
  have hadd : (index + 2).toNat = (index.toNat + 2) % 2 ^ 32 := rfl
  have hmax : indexAfter index = if index + 2 ≤ 1 then 1 else index + 2 := rfl
  rw [hmax] at h
  split_ifs at h with hle
  · -- the sum has wrapped, so the index was one of the last two
    have hle' : (index + 2).toNat ≤ 1 := hle
    rw [hadd, ← h] at hle'
    exact absurd hle' (by decide)
  · have hsame := congrArg UInt32.toNat h
    rw [hadd] at hsame
    omega

/-- The installed session has the index before the next one. -/
def Indexed (node : Node) : Prop :=
  ∀ slot, node.peer = some slot → node.nextIndex = indexAfter slot.session.localIndex

theorem Indexed.step (hP : P.Lawful) {node : Node} (h : node.Indexed) (e : NodeEvent) :
    (node.step P e).Indexed := by
  intro slot' hslot
  obtain ⟨-, ⟨hpeer, hnext⟩ | ⟨learned, keys, source, hnext, hindex, hpeer⟩ |
    ⟨slot, session, source, hold, hindex, hnext, hpeer⟩⟩ := step_cases hP node e
  · rw [hnext, h slot' (hpeer.symm.trans hslot)]
  · obtain rfl := Option.some.inj (hpeer.symm.trans hslot)
    rw [hnext, ← hindex]
    rfl
  · obtain rfl := Option.some.inj (hpeer.symm.trans hslot)
    rw [hnext, h slot hold, hindex]

theorem Indexed.run (hP : P.Lawful) {node : Node} (h : node.Indexed) (events : List NodeEvent) :
    (node.run P events).Indexed := by
  induction events generalizing node with
  | nil => exact h
  | cons e events ih => exact ih (h.step hP e)

theorem nodeKey_run (hP : P.Lawful) (node : Node) (events : List NodeEvent) :
    (node.run P events).nodeKey = node.nodeKey := by
  induction events generalizing node with
  | nil => rfl
  | cons e events ih =>
    rw [run_cons, ih]
    exact (step_cases hP node e).1

/-- In the run, the node accepted `packet` as an initiation, and learned
`learned` from it. -/
def Accepted (P : Primitives) (node : Node) (events : List NodeEvent) (packet : List UInt8)
    (learned : Initiation) : Prop :=
  ∃ before source after responder, events = before ++ .inbound packet source :: after ∧
    Responder.consumeInitiation P (node.run P before).nodeKey packet = .ok (responder, learned)

/-- After the run, `packet` is the copy of an initiation accepted in it, or a
further initiation of a peer that had one accepted in it with a timestamp at
least as new. -/
def Stale (P : Primitives) (node : Node) (events : List NodeEvent) (packet : List UInt8) : Prop :=
  ∃ old learned, Accepted P node events old learned ∧
    (packet = old ∨ ∃ responder learned',
      Responder.consumeInitiation P (node.run P events).nodeKey packet =
        .ok (responder, learned') ∧
      learned'.peerStatic = learned.peerStatic ∧
      learned'.timestamp.isNewerThan learned.timestamp = false)

/-- A stale initiation is accepted like any other. -/
theorem Stale.accepted (hP : P.Lawful) {node : Node} {events : List NodeEvent}
    {packet : List UInt8} (h : Stale P node events packet) :
    ∃ res, Responder.consumeInitiation P (node.run P events).nodeKey packet = .ok res := by
  obtain ⟨old, learned, ⟨before, source, after, responder, -, hold⟩, rfl | hnew⟩ := h
  · refine ⟨(responder, learned), ?_⟩
    rw [nodeKey_run hP] at hold ⊢
    exact hold
  · obtain ⟨responder', learned', hconsume, -, -⟩ := hnew
    exact ⟨_, hconsume⟩

/-- **Replays take the session over.**  After every run, a stale initiation,
whichever way it comes, is answered and puts a new session in the place of the
one installed: the slot never stays as it was. -/
theorem stale_initiation_replaces_session (hP : P.Lawful) (nodeKey : NodePrivate)
    (discoKey : DiscoPrivate) (indexSeed : UInt32) (events : List NodeEvent)
    (packet : List UInt8) (source : Source)
    (h : Stale P (Node.new P nodeKey discoKey indexSeed) events packet) :
    let node := (Node.new P nodeKey discoKey indexSeed).run P events
    (node.step P (.inbound packet source)).peer ≠ node.peer ∧
      ∃ slot response,
        node.handle P packet source bufferLen =
          ({ node with nextIndex := indexAfter node.nextIndex, peer := some slot },
            some (.reply response)) ∧
        slot.source = source ∧ ∀ old, node.peer = some old → slot.session ≠ old.session := by
  intro node
  have hstart : (Node.new P nodeKey discoKey indexSeed).Indexed := by
    intro slot hs
    cases hs
  have hindexed : node.Indexed := hstart.run hP events
  obtain ⟨⟨responder, learned⟩, hconsume⟩ := h.accepted hP
  obtain ⟨slot, response, he, -, hsource, hindex, -⟩ := handle_accepted hP hconsume source
  have hother : ∀ old, node.peer = some old → slot.session ≠ old.session := by
    intro old hold hsame
    rw [hsame, hindexed old hold] at hindex
    exact indexAfter_ne _ hindex.symm
  refine ⟨fun hkept => ?_, slot, response, he, hsource, hother⟩
  rw [step, he] at hkept
  exact hother slot hkept.symm rfl

/-- The same initiation twice: over UDP, and captured and replayed through the
relay. -/
theorem stale_initiation_replaces_session_copy :
    let P := checksumPrimitives
    let key (n : UInt8) : NodePrivate := ⟨Vector.replicate 32 n⟩
    let start := Node.new P (key 2) ⟨Vector.replicate 32 4⟩ 9
    let home : Source := .udp ⟨#v[192, 168, 1, 2], 41641⟩
    let relay : Source := .derp (Vector.replicate 32 6)
    P.Lawful ∧ ∃ msg, Stale P start [.inbound msg home] msg ∧
      let node := start.run P [.inbound msg home]
      (node.step P (.inbound msg relay)).peer ≠ node.peer := by
  intro P key start home relay
  obtain ⟨-, msg, responder, -, -, -, hconsume, -, -⟩ :=
    handle_new_initiation checksumAead_lawful checksumPrimitives_dhCommutes start (key 1) (key 3) 7
      ⟨Vector.replicate 12 5⟩ home
  have hstale : Stale P start [.inbound msg home] msg :=
    ⟨msg, _, ⟨[], home, [], responder, rfl, hconsume⟩, .inl rfl⟩
  exact ⟨checksumAead_lawful, msg, hstale,
    (stale_initiation_replaces_session checksumAead_lawful (key 2) ⟨Vector.replicate 32 4⟩ 9 _ msg
      relay hstale).1⟩

/-- The second copy of an initiation changes the slot: its session gets the
next index, and its return path is that of the copy. -/
theorem replayed_initiation_accepted :
    let P := checksumPrimitives
    let key (n : UInt8) : NodePrivate := ⟨Vector.replicate 32 n⟩
    let start := Node.new P (key 2) ⟨Vector.replicate 32 4⟩ 9
    let home : Source := .udp ⟨#v[192, 168, 1, 2], 41641⟩
    let relay : Source := .derp (Vector.replicate 32 6)
    ∃ initiator msg,
      Initiator.new P (key 1) ((key 2).public P) (key 3) 7 ⟨Vector.replicate 12 5⟩ =
        .ok (initiator, msg) ∧
      let node := start.run P [.inbound msg home]
      Stale P start [.inbound msg home] msg ∧
      node.peer.map PeerSlot.source = some home ∧
      (node.step P (.inbound msg relay)).peer.map PeerSlot.source = some relay ∧
      (node.step P (.inbound msg relay)).peer ≠ node.peer := by
  intro P key start home relay
  obtain ⟨initiator, msg, responder, slot, response, hnew, hconsume, he, hsource, -⟩ :=
    handle_new_initiation checksumAead_lawful checksumPrimitives_dhCommutes start (key 1) (key 3) 7
      ⟨Vector.replicate 12 5⟩ home
  -- the copy is accepted too, the key being what it was
  let node : Node := { start with nextIndex := indexAfter start.nextIndex, peer := some slot }
  have hagain : Responder.consumeInitiation P node.nodeKey msg = .ok (responder, _) := hconsume
  obtain ⟨slot', response', he', -, hsource', -, -⟩ :=
    handle_accepted checksumAead_lawful hagain relay
  refine ⟨initiator, msg, hnew, ⟨msg, _, ⟨[], home, [], responder, rfl, hconsume⟩, .inl rfl⟩, ?_⟩
  rw [run_cons, run_nil, step, step, he, he']
  have hmoved : some slot'.source ≠ some slot.source := by
    rw [hsource, hsource']
    exact fun h => nomatch Option.some.inj h
  exact ⟨congrArg some hsource, congrArg some hsource',
    fun h => hmoved (congrArg (Option.map PeerSlot.source) h)⟩

end Node

end Lando.Fw
