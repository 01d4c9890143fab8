/-
Lando/FwTraffic.lean

The traffic between a peer and the tunnel of the firmware, from end to end: the
peer's `Session`, a network that carries any bytes to either side, and the
firmware's `Datapath` over its `Node` (`lando-fw/src/wg.rs`, `serve` and
`Node`; `lando-fw/src/derp.rs`, `pump`).

What the node does to its session is a list of calls (`Node.calls`): a packet
from the tunnel is encrypted, a transport packet is decrypted, and what turns
out to be a TSMP ping has its pong encrypted.  The calls run beside the
datapath on a `Duplex`, whose end `b` the node's session is.

The network can put another session in its place: anyone who has the node's
public key can make an initiation, and the node accepts it.  So the runs of this
file last from one accepted initiation to the next (`Traffic.Quiet`).
-/
import Lando.Duplex
import Lando.FwRelay
import Lando.TsmpPong

namespace Lando

/-- The primitives, with a cipher that opens of the transport packets, which carry
no associated data, what it remembers.  The fields of a handshake carry a hash, and
are opened as they were. -/
def Primitives.ideal (P : Primitives) (log : List Sealed) : Primitives :=
  { P with
    decryptInPlaceDetached := fun k n ad c t =>
      if ad = [] then idealDecrypt log k n ad c t else P.decryptInPlaceDetached k n ad c t }

/-! ### Handshakes and transport packets -/

section Ideal

variable (P : Primitives) {log : List Sealed}

theorem HandshakeState.open_ideal (st : HandshakeState) (cipher : Key) (outLen : ℕ)
    (ciphertext : List UInt8) :
    st.open (P.ideal log) cipher outLen ciphertext = st.open P cipher outLen ciphertext := by
  have hash_ne : st.h.toList ≠ [] := by
    intro h
    have hlen := congrArg List.length h
    rw [Vector.length_toList] at hlen
    cases hlen
  unfold HandshakeState.open
  simp only [Primitives.ideal, if_neg hash_ne]
  rfl

/-- An initiation is accepted or refused as ever. -/
theorem Responder.consumeInitiation_ideal (nodeKey : NodePrivate) (msg : List UInt8) :
    Responder.consumeInitiation (P.ideal log) nodeKey msg =
      Responder.consumeInitiation P nodeKey msg := by
  unfold Responder.consumeInitiation
  simp only [HandshakeState.open_ideal]
  rfl

theorem Session.decrypt_ideal (d : Duplex) (s : Session) (packet : List UInt8) :
    s.decrypt (P.ideal d.log).toAead packet =
      s.decrypt (d.aead P.encryptInPlaceDetached) packet := rfl

end Ideal

namespace Fw

open Bytes Derp

namespace Node

/-- What the node reads of a packet: the text in a transport packet that fits its
buffer. -/
def reads (P : Primitives) (session : Session) (packet : List UInt8) : Option (List UInt8) :=
  if packet.head? = some msgTransport ∧ packet.length ≤ bufferLen then
    (session.decrypt P.toAead packet).2.toOption
  else none

/-- The answer to a text that is a TSMP ping. -/
def pongTo (plain : List UInt8) : Option (List UInt8) :=
  (Tsmp.parsePing plain).bind fun ping => Tsmp.writePong ping 64

/-- A text that is not a ping is for the LAN. -/
def forTunnel (plain : List UInt8) : Option (List UInt8) :=
  if (Tsmp.parsePing plain).isSome then none else some plain

end Node

/-- The event brings no initiation that the node accepts. -/
def NodeEvent.Quiet (P : Primitives) (nodeKey : NodePrivate) : NodeEvent → Prop
  | .inbound packet _ => ∀ res, Responder.consumeInitiation P nodeKey packet ≠ .ok res
  | .outbound _ => True

/-- A transport packet is no initiation. -/
theorem NodeEvent.quiet_of_transport (P : Primitives) (nodeKey : NodePrivate)
    {packet : List UInt8} (h : packet.head? = some msgTransport) (source : Source) :
    (NodeEvent.inbound packet source).Quiet P nodeKey := by
  intro res hres
  have hhead := Responder.head_of_consumeInitiation hres
  rw [h] at hhead
  exact absurd hhead (by decide)

namespace Node

/-- What the node has its session do. -/
def calls (P : Primitives) (session : Session) : NodeEvent → List DuplexEvent
  | .outbound packet => [.encrypt .b packet bufferLen]
  | .inbound packet _ =>
      match reads P session packet with
      | none => []
      | some plain =>
          .arrive .b packet :: (pongTo plain).toList.map fun pong => .encrypt .b pong bufferLen

/-! ### One call of the node -/

variable {P : Primitives} {node : Node} {slot : PeerSlot} {d : Duplex}

theorem handleInitiation_ideal {log : List Sealed} (node : Node) (packet : List UInt8)
    (source : Source) (outLen : ℕ) :
    node.handleInitiation (P.ideal log) packet source outLen =
      node.handleInitiation P packet source outLen := by
  unfold handleInitiation
  rw [Responder.consumeInitiation_ideal]
  rfl

/-- What is refused leaves the node as it is. -/
theorem handleInitiation_refused {packet : List UInt8}
    (h : ∀ res, Responder.consumeInitiation P node.nodeKey packet ≠ .ok res) (source : Source)
    (outLen : ℕ) : node.handleInitiation P packet source outLen = (node, none) := by
  unfold handleInitiation
  rcases hc : Responder.consumeInitiation P node.nodeKey packet with e | res
  · rfl
  · exact absurd hc (h res)

/-- What is accepted puts a new session in the slot. -/
theorem handle_renewed (hP : P.Lawful) {log : List Sealed} {packet : List UInt8}
    {res : Responder × Initiation}
    (h : Responder.consumeInitiation P node.nodeKey packet = .ok res) (source : Source) :
    ∃ keys, (node.handle (P.ideal log) packet source bufferLen).1.peer =
      some ⟨res.2.peerStatic, Session.new keys, source⟩ := by
  rw [handle_initiation (Responder.head_of_consumeInitiation h), handleInitiation_ideal]
  rcases handleInitiation_cases hP node packet source with
    ⟨hc, -⟩ | ⟨responder, learned, response, keys, hc, -, he⟩
  · rw [h] at hc
    cases hc
  · obtain rfl := Except.ok.inj (h.symm.trans hc)
    exact ⟨keys, by rw [he]⟩

theorem reads_of_ne {Q : Primitives} {session : Session} {packet : List UInt8}
    (h : packet.head? ≠ some msgTransport) : reads Q session packet = none :=
  if_neg fun h' => h h'.1

theorem reads_some {Q : Primitives} {session : Session} {packet plain : List UInt8} :
    reads Q session packet = some plain ↔ packet.head? = some msgTransport ∧
      packet.length ≤ bufferLen ∧ (session.decrypt Q.toAead packet).2 = .ok plain := by
  by_cases h : packet.head? = some msgTransport ∧ packet.length ≤ bufferLen
  · rw [reads, if_pos h]
    rcases (session.decrypt Q.toAead packet).2 with e | text
    · refine iff_of_false (fun hok => ?_) fun hok => ?_
      · cases hok
      · cases hok.2.2
    · exact ⟨fun hok => ⟨h.1, h.2, congrArg Except.ok (Option.some.inj hok)⟩,
        fun hok => congrArg some (Except.ok.inj hok.2.2)⟩
  · rw [reads, if_neg h]
    exact iff_of_false (Option.some_ne_none plain).symm fun hok => h ⟨hok.1, hok.2.1⟩

/-- A ping is answered under the session that has opened it. -/
theorem handlePlain_ideal (node : Node) (slot : PeerSlot) (hslot : slot.session = d.ends .b)
    (plain : List UInt8) :
    (node.handlePlain (P.ideal d.log) slot plain bufferLen).1.peer =
      some { slot with
        session := (d.run P.encryptInPlaceDetached ((pongTo plain).toList.map
          fun pong => .encrypt .b pong bufferLen)).ends .b } := by
  have hnone : some slot = some { slot with session := d.ends .b } := by rw [← hslot]
  rw [handlePlain, pongTo]
  rcases hping : Tsmp.parsePing plain with - | ping
  · simp only
    split_ifs
    · exact hnone
    · exact hnone
  rcases hpong : Tsmp.writePong ping 64 with - | pong
  · simp only [hpong, Option.bind_some]
    exact hnone
  simp only [hpong, Option.bind_some]
  show _ = some { slot with
    session := (d.step P.encryptInPlaceDetached (.encrypt .b pong bufferLen)).ends .b }
  rw [Duplex.ends_encrypt, ← hslot]
  rcases he : slot.session.encrypt (P.ideal d.log).toAead pong bufferLen with ⟨session, e | sent⟩
  · rw [show slot.session.encrypt (d.aead P.encryptInPlaceDetached) pong bufferLen = _ from he]
  · rw [show slot.session.encrypt (d.aead P.encryptInPlaceDetached) pong bufferLen = _ from he]

/-- **One event of the node.**  Unless an initiation is accepted, the slot stays with
its peer, and its session is the one that the calls leave. -/
theorem step_ideal (hpeer : node.peer = some slot) (hslot : slot.session = d.ends .b)
    {ev : NodeEvent} (hquiet : ev.Quiet P node.nodeKey) :
    ∃ source, (node.step (P.ideal d.log) ev).peer =
      some ⟨slot.key, (d.run P.encryptInPlaceDetached
        (calls (P.ideal d.log) slot.session ev)).ends .b, source⟩ := by
  have hkept : ∀ source, (⟨slot.key, slot.session, source⟩ : PeerSlot) =
      ⟨slot.key, d.ends .b, source⟩ := fun source => by rw [hslot]
  cases ev with
  | outbound packet =>
    refine ⟨slot.source, ?_⟩
    show _ = some (PeerSlot.mk slot.key
      ((d.step P.encryptInPlaceDetached (.encrypt .b packet bufferLen)).ends .b) slot.source)
    rw [Duplex.ends_encrypt, ← hslot, step, encrypt, hpeer]
    rcases he : slot.session.encrypt (P.ideal d.log).toAead packet bufferLen with ⟨session, e | c⟩
    · simp only [he]
      rw [show slot.session.encrypt (d.aead P.encryptInPlaceDetached) packet bufferLen = _ from he]
    · simp only [he]
      rw [show slot.session.encrypt (d.aead P.encryptInPlaceDetached) packet bufferLen = _ from he]
  | inbound packet source =>
    rw [step]
    by_cases h₁ : packet.head? = some msgInitiation
    · rw [handle_initiation h₁, handleInitiation_ideal, handleInitiation_refused hquiet]
      refine ⟨slot.source, ?_⟩
      rw [calls, reads_of_ne (by rw [h₁]; decide), hpeer]
      exact congrArg some (hkept slot.source)
    by_cases h₂ : packet.head? = some msgTransport
    · rw [handle_transport h₂, handleTransport, hpeer]
      refine ⟨source, ?_⟩
      simp only
      by_cases hlen : bufferLen < packet.length
      · rw [if_pos hlen, calls, reads, if_neg (by omega)]
        exact congrArg some (hkept source)
      rw [if_neg hlen, calls, reads, if_pos ⟨h₂, Nat.not_lt.mp hlen⟩]
      rcases hdec : slot.session.decrypt (P.ideal d.log).toAead packet with ⟨session, e | plain⟩
      · -- what does not open leaves the session as it was
        rcases slot.session.decrypt_cases (P.ideal d.log).toAead packet with
          ⟨_, hd⟩ | ⟨_, _, _, -, -, -, hd⟩
        · obtain ⟨rfl, -⟩ := Prod.mk.inj (hdec.symm.trans hd)
          exact congrArg some (hkept source)
        · obtain ⟨-, he⟩ := Prod.mk.inj (hdec.symm.trans hd)
          cases he
      · have hends : session =
            (d.step P.encryptInPlaceDetached (.arrive .b packet)).ends .b := by
          rw [Duplex.ends_arrive, ← hslot]
          exact (congrArg Prod.fst hdec).symm
        have hplain := handlePlain_ideal (P := P) node ⟨slot.key, session, source⟩ hends plain
        rw [Duplex.log_arrive] at hplain
        exact hplain
    · obtain ⟨nonce, he⟩ := handle_other (P.ideal d.log) node source bufferLen h₁ h₂
      refine ⟨slot.source, ?_⟩
      rw [he, calls, reads_of_ne h₂]
      exact hpeer.trans (congrArg some (hkept slot.source))

/-- What a call hands to the tunnel. -/
def handed : Option Action → Option (List UInt8)
  | some (.deliver bytes) => some bytes
  | _ => none

/-- An initiation is answered at most. -/
theorem handleInitiation_reply (Q : Primitives) (node : Node) (packet : List UInt8)
    (source : Source) :
    (node.handleInitiation Q packet source bufferLen).2 = none ∨
      ∃ bytes, (node.handleInitiation Q packet source bufferLen).2 = some (.reply bytes) := by
  unfold handleInitiation
  rcases Responder.consumeInitiation Q node.nodeKey packet with e | ⟨responder, learned⟩
  · exact .inl rfl
  simp only
  rcases responder.respond Q _ _ with e | ⟨response, keys⟩
  · exact .inl rfl
  simp only
  split_ifs
  · exact .inl rfl
  · exact .inr ⟨response, rfl⟩

/-- Nothing but a transport packet holds anything for the tunnel. -/
theorem handed_other (Q : Primitives) (node : Node) {packet : List UInt8} (source : Source)
    (h : packet.head? ≠ some msgTransport) :
    handed (node.handle Q packet source bufferLen).2 = none := by
  unfold handle
  rcases Disco.parseHeader packet with e | ⟨header, sealed⟩
  · rcases hh : packet.head? with - | kind
    · rfl
    simp only
    split_ifs with h₁ h₂
    · rcases handleInitiation_reply Q node packet source with hnone | ⟨bytes, hreply⟩
      · rw [hnone]
        rfl
      · rw [hreply]
        rfl
    · exact absurd (hh.trans (congrArg some h₂)) h
    · rfl
  · simp only [handleDisco]
    rcases Disco.open Q node.discoKey.bytes header sealed 256 with e | plain
    · rfl
    simp only
    rcases Disco.parsePing plain with e | ping
    · rfl
    simp only
    generalize Disco.writePong _ _ _ _ _ _ _ _ _ = pong
    rcases pong with e | pong
    · rfl
    · rfl

/-- The tunnel gets what the node reads, but for the pings. -/
theorem handed_handle {keys : Side → SessionKeys} (hP : P.Lawful)
    (hd : Duplex.Inv P.encryptInPlaceDetached keys d) (hpeer : node.peer = some slot)
    (hslot : slot.session = d.ends .b) (packet : List UInt8) (source : Source) :
    handed (node.handle (P.ideal d.log) packet source bufferLen).2 =
      (reads (P.ideal d.log) slot.session packet).bind forTunnel := by
  by_cases h₂ : packet.head? = some msgTransport
  swap
  · rw [reads_of_ne h₂]
    exact handed_other _ node source h₂
  rw [handle_transport h₂, handleTransport, hpeer]
  simp only
  by_cases hlen : bufferLen < packet.length
  · rw [if_pos hlen, reads, if_neg (by omega)]
    rfl
  rw [if_neg hlen, reads, if_pos ⟨h₂, Nat.not_lt.mp hlen⟩]
  rcases hdec : slot.session.decrypt (P.ideal d.log).toAead packet with ⟨session, e | plain⟩
  · rfl
  have hfits : ¬ bufferLen < plain.length := by
    have hlength := hd.length_decrypt hP.encrypt_length
      (show ((d.ends .b).decrypt (d.aead _) packet).2 = .ok plain by
        rw [← hslot]
        exact congrArg Prod.snd hdec)
    omega
  show handed (node.handlePlain (P.ideal d.log) _ plain bufferLen).2 = forTunnel plain
  rw [handlePlain, forTunnel]
  rcases Tsmp.parsePing plain with - | ping
  · simp only [if_neg hfits]
    rfl
  simp only
  rcases Tsmp.writePong ping 64 with - | pong
  · rfl
  simp only
  rcases session.encrypt (P.ideal d.log).toAead pong bufferLen with ⟨session', e | sent⟩
  · rfl
  · rfl

theorem length_pongBytes (ping : Tsmp.Ping) : (Tsmp.pongBytes ping).length = 31 := by
  simp [Tsmp.pongBytes, Tsmp.pongHeader]

theorem pongTo_ping {plain : List UInt8} {ping : Tsmp.Ping}
    (h : Tsmp.parsePing plain = some ping) : pongTo plain = some (Tsmp.pongBytes ping) := by
  rw [pongTo, h, Option.bind_some, Tsmp.writePong_eq]
  rfl

/-- A ping that is read is answered, if the session can still encrypt. -/
theorem handle_tsmp {Q : Primitives} (hpeer : node.peer = some slot) {packet plain : List UInt8}
    (hr : reads Q slot.session packet = some plain) {ping : Tsmp.Ping}
    (hping : Tsmp.parsePing plain = some ping) {session : Session} {cipher : List UInt8}
    (he : (slot.session.decrypt Q.toAead packet).1.encrypt Q.toAead (Tsmp.pongBytes ping) bufferLen
      = (session, .ok cipher)) (source : Source) :
    (node.handle Q packet source bufferLen).2 = some (.reply cipher) := by
  obtain ⟨hhead, hlen, hok⟩ := reads_some.mp hr
  rw [handle_transport hhead, handleTransport, hpeer]
  simp only
  rw [if_neg (Nat.not_lt.mpr hlen)]
  rcases hdec : slot.session.decrypt Q.toAead packet with ⟨opened, res⟩
  rw [hdec] at hok he
  obtain rfl := hok
  have hpong : Tsmp.writePong ping 64 = some (Tsmp.pongBytes ping) := by
    rw [Tsmp.writePong_eq]
    rfl
  simp only [handlePlain, hping, hpong, he]

/-! ### What the calls leave behind -/

variable {E : Link.Encryption}

/-- The books after the calls.  A text that was read has its counter entered, and
nothing else has; what was sealed came from the tunnel, or answers a ping. -/
theorem books_calls {Q : Primitives}
    (hQ : ∀ packet, (d.ends .b).decrypt Q.toAead packet = (d.ends .b).decrypt (d.aead E) packet)
    (ev : NodeEvent) :
    (d.run E (calls Q (d.ends .b) ev)).opened .a = d.opened .a ∧
    (d.run E (calls Q (d.ends .b) ev)).sent .a = d.sent .a ∧
    (d.run E (calls Q (d.ends .b) ev)).opened .b = d.opened .b ++
      (match ev with
      | .inbound packet _ => (reads Q (d.ends .b) packet).toList.map fun _ => packetCounter packet
      | .outbound _ => []) ∧
    ∃ new, (d.run E (calls Q (d.ends .b) ev)).sent .b = d.sent .b ++ new ∧
      ∀ p ∈ new, match ev with
        | .inbound packet _ => ∃ plain, reads Q (d.ends .b) packet = some plain ∧
            pongTo plain = some p.1
        | .outbound packet => p.1 = packet := by
  have hne : Side.a ≠ Side.b := by decide
  have hsealed : ∀ (d : Duplex) (payload : List UInt8),
      (d.step E (.encrypt .b payload bufferLen)).opened = d.opened ∧
      (d.step E (.encrypt .b payload bufferLen)).sent .a = d.sent .a ∧
      ∃ new, (d.step E (.encrypt .b payload bufferLen)).sent .b = d.sent .b ++ new ∧
        ∀ p ∈ new, p.1 = payload := by
    intro d payload
    rw [Duplex.opened_encrypt, Duplex.sent_encrypt, Function.update_of_ne hne, Function.update_self]
    refine ⟨rfl, rfl, _, rfl, fun p hp => ?_⟩
    obtain ⟨packet, -, rfl⟩ := List.mem_map.mp hp
    rfl
  cases ev with
  | outbound packet =>
    obtain ⟨hopened, hsent, hnew⟩ := hsealed d packet
    exact ⟨congrFun hopened .a, hsent, (congrFun hopened .b).trans (List.append_nil _).symm, hnew⟩
  | inbound packet source =>
    simp only [calls]
    rcases hr : reads Q (d.ends .b) packet with - | plain
    · exact ⟨rfl, rfl, (List.append_nil _).symm, [], (List.append_nil _).symm,
        fun p hp => absurd hp List.not_mem_nil⟩
    have hok : ((d.ends .b).decrypt (d.aead E) packet).2.toOption = some plain := by
      rw [reads] at hr
      split_ifs at hr
      rwa [hQ] at hr
    have hopened := Duplex.opened_arrive (E := E) d .b packet
    rw [hok] at hopened
    have hsent := Duplex.sent_arrive (E := E) d .b packet
    simp only
    rcases hpong : pongTo plain with - | pong
    · refine ⟨?_, ?_, ?_, [], ?_, fun p hp => absurd hp List.not_mem_nil⟩
      · exact (congrFun hopened .a).trans (Function.update_of_ne hne _ _)
      · exact congrFun hsent .a
      · exact (congrFun hopened .b).trans (Function.update_self _ _ _)
      · exact (congrFun hsent .b).trans (List.append_nil _).symm
    · obtain ⟨hopened', hsent', new, hnew, hall⟩ := hsealed
        (d.step E (.arrive .b packet)) pong
      refine ⟨?_, ?_, ?_, new, ?_, fun p hp => ⟨plain, rfl, ?_⟩⟩
      · exact ((congrFun hopened' .a).trans (congrFun hopened .a)).trans
          (Function.update_of_ne hne _ _)
      · exact hsent'.trans (congrFun hsent .a)
      · exact ((congrFun hopened' .b).trans (congrFun hopened .b)).trans
          (Function.update_self _ _ _)
      · exact hnew.trans (congrArg (· ++ new) (congrFun hsent .b))
      · rw [hpong, hall p hp]

end Node

/-! ### The calls of the datapath -/

/-- The event of the node in a step of the datapath, if there is one. -/
def Datapath.nodeEvent (s : Datapath) : Event → Option NodeEvent
  | .udp packet ep => some (.inbound packet (.udp ep))
  | .outbound packet => some (.outbound packet)
  | .parsed (some (.recvPacket, payload)) =>
      if (s.phase = .top ∧ s.draining = false) ∧ keyLen < payload.length then
        some (.inbound (payload.drop keyLen) (.derp (read 32 payload 0)))
      else none
  | _ => none

/-- What goes into the tunnel. -/
def tunnelled (outs : List Output) : List (List UInt8) :=
  outs.filterMap fun
    | .deliver packet => some packet
    | _ => none

/-- A packet on its way to where another came from. -/
def Output.back (packet : List UInt8) : Source → Output
  | .udp ep => .udp ep packet
  | .derp key => .sendPacket key packet none

namespace Datapath

variable {P : Primitives} {s : Datapath}

theorem tunnelled_append (outs outs' : List Output) :
    tunnelled (outs ++ outs') = tunnelled outs ++ tunnelled outs' := List.filterMap_append

/-- A reply over the relay can end the connection; the node it leaves. -/
theorem sendPacket_node (s : Datapath) (dst : Key) (packet : List UInt8) (dest : Option Key) :
    (s.sendPacket dst packet dest).1.node = s.node ∧
      tunnelled (s.sendPacket dst packet dest).2 = [] := by
  rw [sendPacket]
  split_ifs
  · exact ⟨rfl, rfl⟩
  · exact ⟨rfl, rfl⟩

theorem forward_node (s : Datapath) (q : Queued) :
    (s.forward q).1.node = s.node ∧ tunnelled (s.forward q).2 = [] := by
  rw [forward]
  rcases s.peerKey with - | peer
  · exact ⟨rfl, rfl⟩
  · exact s.sendPacket_node peer _ _

theorem handleFrame_packet (s : Datapath) {payload : List UInt8} (h : keyLen < payload.length) :
    (s.handleFrame P .recvPacket payload).1.node =
      (s.node.handle P (payload.drop keyLen) (.derp (read 32 payload 0)) bufferLen).1 ∧
    tunnelled (s.handleFrame P .recvPacket payload).2 =
      (Node.handed (s.node.handle P (payload.drop keyLen) (.derp (read 32 payload 0))
        bufferLen).2).toList := by
  simp only [handleFrame, if_pos h]
  generalize read 32 payload 0 = src
  rcases s.node.handle P (payload.drop keyLen) (.derp src) bufferLen
    with ⟨node, - | bytes | bytes⟩
  · exact ⟨rfl, rfl⟩
  · exact sendPacket_node _ src bytes none
  · exact ⟨rfl, rfl⟩

theorem handleFrame_other (s : Datapath) {kind : FrameType} {payload : List UInt8}
    (h : ¬ (kind = .recvPacket ∧ keyLen < payload.length)) :
    (s.handleFrame P kind payload).1.node = s.node ∧
      tunnelled (s.handleFrame P kind payload).2 = [] := by
  cases kind with
  | recvPacket =>
    rw [handleFrame, if_neg fun hlen => h ⟨rfl, hlen⟩]
    exact ⟨rfl, rfl⟩
  | ping =>
    simp only [handleFrame]
    split_ifs
    · exact ⟨rfl, rfl⟩
    · exact ⟨rfl, rfl⟩
  | _ => exact ⟨rfl, rfl⟩

theorem nodeEvent_outbound {e : Event} {packet : List UInt8}
    (h : s.nodeEvent e = some (.outbound packet)) : e = .outbound packet := by
  cases e with
  | outbound packet' => rw [NodeEvent.outbound.inj (Option.some.inj h)]
  | parsed frame =>
    rcases frame with - | ⟨kind, payload⟩
    · cases h
    · cases kind with
      | recvPacket =>
        simp only [nodeEvent] at h
        split_ifs at h
        cases h
      | _ => cases h
  | _ => cases h

/-- **One step of the datapath is one of the node, or none.**  The tunnel gets
what the node hands over. -/
theorem step_node (s : Datapath) (e : Event) :
    (s.step P e).1.node = (match s.nodeEvent e with
      | none => s.node
      | some ev => s.node.step P ev) ∧
    tunnelled (s.step P e).2 = match s.nodeEvent e with
      | some (.inbound packet source) =>
          (Node.handed (s.node.handle P packet source bufferLen).2).toList
      | _ => [] := by
  cases e with
  | udp packet ep =>
    simp only [step, nodeEvent, Node.step]
    rcases s.node.handle P packet (.udp ep) bufferLen with ⟨node, - | bytes | bytes⟩
    · exact ⟨rfl, rfl⟩
    · exact ⟨rfl, rfl⟩
    · exact ⟨rfl, rfl⟩
  | outbound packet =>
    simp only [step, nodeEvent, Node.step]
    rcases s.node.encrypt P packet bufferLen with ⟨node, - | ⟨cipher, ep | k⟩⟩
    · exact ⟨rfl, rfl⟩
    · exact ⟨rfl, rfl⟩
    · exact ⟨rfl, rfl⟩
  | drain =>
    simp only [step, nodeEvent]
    split_ifs
    · rcases s.derpOut.tryReceive with - | ⟨q, derpOut⟩
      · exact ⟨rfl, rfl⟩
      · exact forward_node _ q
    · exact ⟨rfl, rfl⟩
  | parsed frame =>
    rcases frame with - | ⟨kind, payload⟩
    · simp only [step, nodeEvent]
      split_ifs
      · exact ⟨rfl, rfl⟩
      · exact ⟨rfl, rfl⟩
    by_cases htop : s.phase = .top ∧ s.draining = false
    · rw [step_frame htop.1 htop.2]
      by_cases hrecv : kind = .recvPacket ∧ keyLen < payload.length
      · obtain ⟨rfl, hlen⟩ := hrecv
        simp only [nodeEvent, if_pos (And.intro htop hlen), Node.step]
        exact s.handleFrame_packet hlen
      · have hnone : s.nodeEvent (.parsed (some (kind, payload))) = none := by
          cases kind with
          | recvPacket => exact if_neg fun h => hrecv ⟨rfl, h.2⟩
          | _ => rfl
        rw [hnone]
        exact s.handleFrame_other hrecv
    · have hnone : s.nodeEvent (.parsed (some (kind, payload))) = none := by
        cases kind with
        | recvPacket => exact if_neg fun h => htop h.1
        | _ => rfl
      rw [hnone, show s.step P (.parsed (some (kind, payload))) = (s, []) from if_neg htop]
      exact ⟨rfl, rfl⟩
  | read =>
    simp only [step, nodeEvent]
    split_ifs
    · exact ⟨rfl, rfl⟩
    · exact ⟨rfl, rfl⟩
  | receive =>
    simp only [step, nodeEvent]
    split_ifs
    · rcases s.derpOut.tryReceive with - | ⟨q, derpOut⟩
      · exact ⟨rfl, rfl⟩
      · exact forward_node _ q
    · exact ⟨rfl, rfl⟩
  | lost => exact ⟨rfl, rfl⟩

end Datapath

/-- A packet for the peer leaves by UDP, or enters the channel of the relay. -/
def Datapath.Emits (P : Primitives) (s : Datapath) (packet cipher : List UInt8) : Source → Prop
  | .udp ep => (s.step P (.outbound packet)).2 = [.udp ep cipher]
  | .derp key => (s.step P (.outbound packet)).1.derpOut =
      s.derpOut.trySend ⟨Relayed.new cipher, key⟩

theorem Datapath.step_emits {P : Primitives} {s : Datapath} {slot : PeerSlot} {session : Session}
    {packet cipher : List UInt8} (hslot : s.node.peer = some slot)
    (he : slot.session.encrypt P.toAead packet bufferLen = (session, .ok cipher)) :
    s.Emits P packet cipher slot.source := by
  have hnode : s.node.encrypt P packet bufferLen =
      ({ s.node with peer := some { slot with session := session } },
        some (cipher, slot.source)) := by
    simp only [Node.encrypt, hslot, he]
  rcases hsource : slot.source with ep | key
  · rw [hsource] at hnode
    simp only [Emits, step, hnode]
  · rw [hsource] at hnode
    simp only [Emits, step, hnode]

/-- A reply goes back the way the packet came. -/
theorem Datapath.step_reply {P : Primitives} {s : Datapath} {e : Event} {packet bytes : List UInt8}
    {source : Source} (hev : s.nodeEvent e = some (.inbound packet source))
    (hreply : (s.node.handle P packet source bufferLen).2 = some (.reply bytes))
    (hlen : bytes.length ≤ bufferLen) : (s.step P e).2 = [.back bytes source] := by
  cases e with
  | udp packet' ep =>
    obtain ⟨rfl, rfl⟩ := NodeEvent.inbound.inj (Option.some.inj hev)
    rcases hh : s.node.handle P packet' (.udp ep) bufferLen with ⟨node, action⟩
    rw [hh] at hreply
    obtain rfl := hreply
    simp only [step, hh]
    rfl
  | parsed frame =>
    rcases frame with - | ⟨kind, payload⟩
    · cases hev
    · cases kind with
      | recvPacket =>
        simp only [nodeEvent] at hev
        split_ifs at hev with h
        obtain ⟨rfl, rfl⟩ := NodeEvent.inbound.inj (Option.some.inj hev)
        rw [step_frame h.1.1 h.1.2]
        rcases hh : s.node.handle P (payload.drop keyLen) (.derp (read 32 payload 0)) bufferLen
          with ⟨node, action⟩
        rw [hh] at hreply
        obtain rfl := hreply
        simp only [handleFrame, if_pos h.2, hh]
        rw [sendPacket_of_le hlen]
        rfl
      | _ => cases hev
  | _ => cases hev

/-! ### Traffic -/

/-- A peer, the datapath and the network between them.  End `a` of the duplex is
the session of the peer; end `b` follows the session of the node. -/
structure Traffic where
  duplex : Duplex
  path : Datapath
  outs : List Output

/-- The peer has something to send, some packet reaches it, or the datapath
takes a step. -/
inductive TrafficEvent
  | peerSends (payload : List UInt8) (outLen : ℕ)
  | peerReceives (packet : List UInt8)
  | path (e : Event)

namespace Traffic

/-- Two sessions that have sent nothing, and the datapath. -/
def start (keys : Side → SessionKeys) (path : Datapath) : Traffic := ⟨Duplex.start keys, path, []⟩

variable (P : Primitives)

/-- What the duplex is told of a step. -/
def calls (w : Traffic) : TrafficEvent → List DuplexEvent
  | .peerSends payload outLen => [.encrypt .a payload outLen]
  | .peerReceives packet => [.arrive .a packet]
  | .path e =>
      match w.path.nodeEvent e with
      | none => []
      | some ev => Node.calls (P.ideal w.duplex.log) (w.duplex.ends .b) ev

/-- The datapath runs with the cipher as it is when the step begins. -/
def step (w : Traffic) (ev : TrafficEvent) : Traffic :=
  let duplex := w.duplex.run P.encryptInPlaceDetached (w.calls P ev)
  match ev with
  | .path e =>
      let (path, out) := w.path.step (P.ideal w.duplex.log) e
      ⟨duplex, path, w.outs ++ out⟩
  | _ => { w with duplex := duplex }

/-- The traffic after a list of events. -/
def run (w : Traffic) (evs : List TrafficEvent) : Traffic := evs.foldl (step P) w

/-- The step brings no initiation that the node accepts. -/
def Quiet (w : Traffic) : TrafficEvent → Prop
  | .path e => ∀ ev, w.path.nodeEvent e = some ev → ev.Quiet P w.path.node.nodeKey
  | _ => True

/-- The session of the node lasts: no step of the run brings an initiation that it
accepts. -/
def QuietRun (w : Traffic) : List TrafficEvent → Prop
  | [] => True
  | ev :: evs => w.Quiet P ev ∧ (w.step P ev).QuietRun evs

/-- What the tunnel is due for the packet with this counter. -/
def text (w : Traffic) (counter : UInt64) : Option (List UInt8) :=
  (w.duplex.sent .a)[counter.toNat]?.bind fun p => Node.forTunnel (padded p.1)

/-- What the peer is due for the packet with this counter, if it is a ping. -/
def pong (w : Traffic) (counter : UInt64) : Option (List UInt8) :=
  (w.duplex.sent .a)[counter.toNat]?.bind fun p => Node.pongTo (padded p.1)

/-- What holds throughout a run. -/
structure Inv (keys : Side → SessionKeys) (key : NodePublic) (evs : List TrafficEvent)
    (w : Traffic) : Prop where
  duplex : Duplex.Inv P.encryptInPlaceDetached keys w.duplex
  /-- No other session gets into the slot. -/
  slot : ∃ source, w.path.node.peer = some ⟨key, w.duplex.ends .b, source⟩
  tunnel : tunnelled w.outs = (w.duplex.opened .b).filterMap w.text
  asked : ∀ p ∈ w.duplex.sent .a, ∃ outLen, .peerSends p.1 outLen ∈ evs
  sealed : ∀ p ∈ w.duplex.sent .b,
    .path (.outbound p.1) ∈ evs ∨ ∃ c ∈ w.duplex.opened .b, w.pong c = some p.1

variable {P} {keys : Side → SessionKeys} {key : NodePublic} {evs : List TrafficEvent} {w : Traffic}

theorem step_duplex (w : Traffic) (ev : TrafficEvent) :
    (w.step P ev).duplex = w.duplex.run P.encryptInPlaceDetached (w.calls P ev) := by
  cases ev <;> rfl

/-- What is due for a counter stays due when the peer goes on sending. -/
theorem due_mono {w' : Traffic} {c : UInt64} (hc : c.toNat < (w.duplex.sent .a).length)
    (h : w.duplex.sent .a <+: w'.duplex.sent .a) : w'.text c = w.text c ∧ w'.pong c = w.pong c := by
  obtain ⟨more, hmore⟩ := h
  have hget : (w'.duplex.sent .a)[c.toNat]? = (w.duplex.sent .a)[c.toNat]? := by
    rw [← hmore, List.getElem?_append_left hc]
  rw [text, text, pong, pong, hget]
  exact ⟨rfl, rfl⟩

/-- What went into the tunnel is still what is due. -/
theorem Inv.tunnel_later (hk : Duplex.Paired keys) (hw : Inv P keys key evs w) {w' : Traffic}
    (h : w.duplex.sent .a <+: w'.duplex.sent .a) :
    tunnelled w.outs = (w.duplex.opened .b).filterMap w'.text := by
  rw [hw.tunnel]
  apply List.filterMap_congr
  intro c hc
  exact (due_mono ((hw.duplex.opened hk .b).2 c hc) h).1.symm

/-- So is what was sealed for the peer. -/
theorem Inv.sealed_later (hk : Duplex.Paired keys) (hw : Inv P keys key evs w) {w' : Traffic}
    {evs' : List TrafficEvent} (hsent : w.duplex.sent .a <+: w'.duplex.sent .a)
    (hopened : ∀ c ∈ w.duplex.opened .b, c ∈ w'.duplex.opened .b) (hevs : ∀ ev ∈ evs, ev ∈ evs')
    {p : List UInt8 × List UInt8} (hp : p ∈ w.duplex.sent .b) :
    .path (.outbound p.1) ∈ evs' ∨ ∃ c ∈ w'.duplex.opened .b, w'.pong c = some p.1 := by
  rcases hw.sealed p hp with hout | ⟨c, hc, hpong⟩
  · exact .inl (hevs _ hout)
  · refine .inr ⟨c, hopened c hc, ?_⟩
    rw [(due_mono ((hw.duplex.opened hk .b).2 c hc) hsent).2, hpong]

/-- The peer sends. -/
theorem Inv.peerSends (hk : Duplex.Paired keys) (hw : Inv P keys key evs w)
    (payload : List UInt8) (outLen : ℕ) :
    Inv P keys key (evs ++ [.peerSends payload outLen])
      (w.step P (.peerSends payload outLen)) := by
  have hne : Side.b ≠ Side.a := by decide
  have hsent := Duplex.sent_encrypt (E := P.encryptInPlaceDetached) w.duplex .a payload outLen
  have hsenta := (congrFun hsent .a).trans (Function.update_self _ _ _)
  have hsentb := (congrFun hsent .b).trans (Function.update_of_ne hne _ _)
  have hopened := Duplex.opened_encrypt (E := P.encryptInPlaceDetached) w.duplex .a payload outLen
  have hends := Duplex.ends_encrypt_ne (E := P.encryptInPlaceDetached) hne w.duplex payload outLen
  have hgrows : w.duplex.sent .a <+: (w.step P (.peerSends payload outLen)).duplex.sent .a :=
    ⟨_, hsenta.symm⟩
  refine ⟨step_duplex w _ ▸ hw.duplex.run hk _, ?_, ?_, fun p hp => ?_, fun p hp => ?_⟩
  · obtain ⟨source, hslot⟩ := hw.slot
    exact ⟨source, hslot.trans (congrArg (fun s => some (PeerSlot.mk key s source)) hends.symm)⟩
  · exact (hw.tunnel_later hk hgrows).trans
      (congrArg (fun o : Side → List UInt64 => (o .b).filterMap _) hopened.symm)
  · rw [show (w.step P (.peerSends payload outLen)).duplex.sent .a = _ from hsenta] at hp
    rcases List.mem_append.mp hp with hp | hp
    · obtain ⟨n, hn⟩ := hw.asked p hp
      exact ⟨n, List.mem_append_left _ hn⟩
    · obtain ⟨packet, -, rfl⟩ := List.mem_map.mp hp
      exact ⟨outLen, List.mem_append_right _ (List.mem_singleton_self _)⟩
  · rw [show (w.step P (.peerSends payload outLen)).duplex.sent .b = _ from hsentb] at hp
    refine hw.sealed_later hk hgrows (fun c hc => ?_) (fun _ => List.mem_append_left _) hp
    rwa [show (w.step P (.peerSends payload outLen)).duplex.opened = _ from hopened]

/-- Some packet reaches the peer. -/
theorem Inv.peerReceives (hk : Duplex.Paired keys) (hw : Inv P keys key evs w)
    (packet : List UInt8) :
    Inv P keys key (evs ++ [.peerReceives packet]) (w.step P (.peerReceives packet)) := by
  have hne : Side.b ≠ Side.a := by decide
  have hsent : (w.step P (.peerReceives packet)).duplex.sent = w.duplex.sent :=
    Duplex.sent_arrive w.duplex .a packet
  have hopened : (w.step P (.peerReceives packet)).duplex.opened .b = w.duplex.opened .b :=
    (congrFun (Duplex.opened_arrive w.duplex .a packet) .b).trans (Function.update_of_ne hne _ _)
  have hends : (w.step P (.peerReceives packet)).duplex.ends .b = w.duplex.ends .b :=
    Duplex.ends_arrive_ne hne w.duplex packet
  have hgrows : w.duplex.sent .a <+: (w.step P (.peerReceives packet)).duplex.sent .a := by
    rw [hsent]
  refine ⟨step_duplex w _ ▸ hw.duplex.run hk _, ?_, ?_, fun p hp => ?_, fun p hp => ?_⟩
  · obtain ⟨source, hslot⟩ := hw.slot
    exact ⟨source, by rw [hends]; exact hslot⟩
  · rw [hopened]
    exact hw.tunnel_later hk hgrows
  · rw [hsent] at hp
    obtain ⟨n, hn⟩ := hw.asked p hp
    exact ⟨n, List.mem_append_left _ hn⟩
  · rw [hsent] at hp
    refine hw.sealed_later hk hgrows (fun c hc => ?_) (fun _ => List.mem_append_left _) hp
    rwa [hopened]

/-- What the node reads is what is due for the counter of the packet. -/
theorem Inv.due_reads (hk : Duplex.Paired keys) (hw : Inv P keys key evs w)
    {packet plain : List UInt8}
    (h : Node.reads (P.ideal w.duplex.log) (w.duplex.ends .b) packet = some plain) :
    w.text (packetCounter packet) = Node.forTunnel plain ∧
      w.pong (packetCounter packet) = Node.pongTo plain := by
  obtain ⟨-, payload, pkt, hsent, rfl⟩ := hw.duplex.decrypt_ok hk (Node.reads_some.mp h).2.2
  rw [text, pong, show (w.duplex.sent .a)[(packetCounter packet).toNat]? = _ from hsent]
  exact ⟨rfl, rfl⟩

/-- What goes into the tunnel is what is due for the counter that is entered. -/
theorem Inv.handed_due (hP : P.Lawful) (hk : Duplex.Paired keys) (hw : Inv P keys key evs w)
    {w' : Traffic} (hsent : w'.duplex.sent .a = w.duplex.sent .a) (packet : List UInt8)
    (source : Source) :
    (Node.handed (w.path.node.handle (P.ideal w.duplex.log) packet source bufferLen).2).toList =
      ((Node.reads (P.ideal w.duplex.log) (w.duplex.ends .b) packet).toList.map
        fun _ => packetCounter packet).filterMap w'.text := by
  obtain ⟨_, hslot⟩ := hw.slot
  rw [Node.handed_handle hP hw.duplex hslot rfl]
  rcases hr : Node.reads (P.ideal w.duplex.log) (w.duplex.ends .b) packet with - | plain
  · rfl
  · show (Node.forTunnel plain).toList = [packetCounter packet].filterMap w'.text
    have hdue : w'.text (packetCounter packet) = Node.forTunnel plain := by
      rw [text, hsent]
      exact (hw.due_reads hk hr).1
    rw [List.filterMap_cons, hdue]
    rcases Node.forTunnel plain with - | bytes
    · rfl
    · rfl

/-- The datapath takes a step in which the node has nothing to do. -/
theorem Inv.path_idle (hk : Duplex.Paired keys) (hw : Inv P keys key evs w) {e : Event}
    (hev : w.path.nodeEvent e = none) :
    Inv P keys key (evs ++ [.path e]) (w.step P (.path e)) := by
  obtain ⟨source, hslot⟩ := hw.slot
  obtain ⟨hnode, hout⟩ := w.path.step_node (P := P.ideal w.duplex.log) e
  have hsteppath : (w.step P (.path e)).path = (w.path.step (P.ideal w.duplex.log) e).1 := rfl
  have hstepouts : (w.step P (.path e)).outs =
      w.outs ++ (w.path.step (P.ideal w.duplex.log) e).2 := rfl
  have hduplex : (w.step P (.path e)).duplex = w.duplex := by
    rw [step_duplex, calls, hev]
    rfl
  rw [hev] at hnode hout
  have hgrows : w.duplex.sent .a <+: (w.step P (.path e)).duplex.sent .a := by rw [hduplex]
  refine ⟨step_duplex w _ ▸ hw.duplex.run hk _, ⟨source, ?_⟩, ?_, fun p hp => ?_, fun p hp => ?_⟩
  · rw [hsteppath, hnode, hduplex]
    exact hslot
  · rw [hstepouts, Datapath.tunnelled_append, hout, List.append_nil, hduplex]
    exact hw.tunnel_later hk hgrows
  · rw [hduplex] at hp
    obtain ⟨n, hn⟩ := hw.asked p hp
    exact ⟨n, List.mem_append_left _ hn⟩
  · rw [hduplex] at hp
    refine hw.sealed_later hk hgrows (fun c hc => ?_) (fun _ => List.mem_append_left _) hp
    rwa [hduplex]

/-- The datapath takes a step of the node. -/
theorem Inv.path_event (hP : P.Lawful) (hk : Duplex.Paired keys) (hw : Inv P keys key evs w)
    {e : Event} {ev : NodeEvent} (hev : w.path.nodeEvent e = some ev)
    (hquiet : ev.Quiet P w.path.node.nodeKey) :
    Inv P keys key (evs ++ [.path e]) (w.step P (.path e)) := by
  obtain ⟨source, hslot⟩ := hw.slot
  obtain ⟨hnode, hout⟩ := w.path.step_node (P := P.ideal w.duplex.log) e
  have hsteppath : (w.step P (.path e)).path = (w.path.step (P.ideal w.duplex.log) e).1 := rfl
  have hstepouts : (w.step P (.path e)).outs =
      w.outs ++ (w.path.step (P.ideal w.duplex.log) e).2 := rfl
  have hduplex : (w.step P (.path e)).duplex = w.duplex.run P.encryptInPlaceDetached
      (Node.calls (P.ideal w.duplex.log) (w.duplex.ends .b) ev) := by
    rw [step_duplex, calls, hev]
  obtain ⟨-, hsent, hopened, new, hnew, hall⟩ :=
    Node.books_calls (Session.decrypt_ideal P w.duplex (w.duplex.ends .b)) ev
  rw [← hduplex] at hsent hopened hnew
  rw [hev] at hnode hout
  have hgrows : w.duplex.sent .a <+: (w.step P (.path e)).duplex.sent .a := by rw [hsent]
  refine ⟨step_duplex w _ ▸ hw.duplex.run hk _, ?_, ?_, fun p hp => ?_, fun p hp => ?_⟩
  · obtain ⟨source', hstep⟩ := Node.step_ideal hslot rfl hquiet
    refine ⟨source', ?_⟩
    rw [hsteppath, hnode, hduplex]
    exact hstep
  · rw [hstepouts, Datapath.tunnelled_append, hout, hopened, List.filterMap_append,
      hw.tunnel_later hk hgrows]
    apply congrArg
    cases ev with
    | outbound packet => rfl
    | inbound packet source' => exact hw.handed_due hP hk hsent packet source'
  · rw [hsent] at hp
    obtain ⟨n, hn⟩ := hw.asked p hp
    exact ⟨n, List.mem_append_left _ hn⟩
  · rw [hnew] at hp
    rcases List.mem_append.mp hp with hp | hp
    · refine hw.sealed_later hk hgrows (fun c hc => ?_) (fun _ => List.mem_append_left _) hp
      rw [hopened]
      exact List.mem_append_left _ hc
    · have hp := hall p hp
      cases ev with
      | outbound packet =>
        obtain rfl := Datapath.nodeEvent_outbound hev
        left
        rw [show p.1 = packet from hp]
        exact List.mem_append_right _ (List.mem_singleton_self _)
      | inbound packet source' =>
        obtain ⟨plain, hr, hpong⟩ := hp
        refine .inr ⟨packetCounter packet, ?_, ?_⟩
        · rw [hopened]
          simp only [hr]
          exact List.mem_append_right _ (List.mem_singleton_self _)
        · rw [pong, hsent]
          exact (hw.due_reads hk hr).2.trans hpong

/-- The datapath takes a step. -/
theorem Inv.path (hP : P.Lawful) (hk : Duplex.Paired keys) (hw : Inv P keys key evs w)
    {e : Event} (hquiet : w.Quiet P (.path e)) :
    Inv P keys key (evs ++ [.path e]) (w.step P (.path e)) := by
  rcases hev : w.path.nodeEvent e with - | ev
  · exact hw.path_idle hk hev
  · exact hw.path_event hP hk hev (hquiet ev hev)

theorem Inv.start (keys : Side → SessionKeys) (key : NodePublic) (source : Source)
    {path : Datapath} (hpath : path.node.peer = some ⟨key, Session.new (keys .b), source⟩) :
    Inv P keys key [] (start keys path) where
  duplex := Duplex.Inv.start keys
  slot := ⟨source, hpath⟩
  tunnel := rfl
  asked := fun _ hp => absurd hp List.not_mem_nil
  sealed := fun _ hp => absurd hp List.not_mem_nil

theorem Inv.step (hP : P.Lawful) (hk : Duplex.Paired keys) (hw : Inv P keys key evs w)
    {ev : TrafficEvent} (hquiet : w.Quiet P ev) :
    Inv P keys key (evs ++ [ev]) (w.step P ev) := by
  cases ev with
  | peerSends payload outLen => exact hw.peerSends hk payload outLen
  | peerReceives packet => exact hw.peerReceives hk packet
  | path e => exact hw.path hP hk hquiet

/-- The invariant holds in every state of every quiet run. -/
theorem Inv.run (hP : P.Lawful) (hk : Duplex.Paired keys) (hw : Inv P keys key evs w)
    {more : List TrafficEvent} (hquiet : w.QuietRun P more) :
    Inv P keys key (evs ++ more) (w.run P more) := by
  induction more generalizing evs w with
  | nil =>
    rw [List.append_nil]
    exact hw
  | cons ev more ih =>
    obtain ⟨hev, hrest⟩ := hquiet
    have hnext := ih (hw.step hP hk hev) hrest
    rw [List.append_assoc] at hnext
    exact hnext

/-- So it holds in every quiet run from the beginning of a session. -/
theorem Inv.of_start (hP : P.Lawful) (hk : Duplex.Paired keys) (source : Source)
    {path : Datapath} (hpath : path.node.peer = some ⟨key, Session.new (keys .b), source⟩)
    (hquiet : (Traffic.start keys path).QuietRun P evs) :
    Inv P keys key evs ((Traffic.start keys path).run P evs) :=
  (Inv.start keys key source hpath).run hP hk hquiet

/-- A packet of the peer that comes as it was sent is read, unless it is late or
too long. -/
theorem Inv.reads_sent (hk : Duplex.Paired keys) (hw : Inv P keys key evs w) {i : ℕ}
    {payload packet : List UInt8} (hi : (w.duplex.sent .a)[i]? = some (payload, packet))
    (hlen : packet.length ≤ bufferLen) (hfresh : UInt64.ofNat i ∉ w.duplex.opened .b)
    (hwin : ∀ j ∈ w.duplex.opened .b, j.toNat < i + 2048) :
    Node.reads (P.ideal w.duplex.log) (w.duplex.ends .b) packet = some (padded payload) := by
  have hok : ((w.duplex.ends .b).decrypt (P.ideal w.duplex.log).toAead packet).2 =
      .ok (padded payload) := hw.duplex.decrypt_sent hk hi hfresh hwin
  exact Node.reads_some.mpr ⟨Session.head_of_decrypt hok, hlen, hok⟩

/-- **Into the tunnel, exactly once.**  A peer and the node have a session, and
the network carries what it likes to either, by UDP or over the relay.  In
every state of every run in which the node accepts no initiation:

* the slot still holds the session with that peer;
* what went into the tunnel is, in order, the padded payloads of the packets
  that the node has opened, less the TSMP pings;
* no packet is opened twice, and only what the peer was asked to send;
* a packet that arrives as it was sent, by either way, is handed to the tunnel
  at once if it is not a ping: provided that it fits the buffer, was not opened
  before, and is less than 2048 behind every packet that was;
* an initiation that the node accepts, whoever made it, puts a new session in
  the slot, and all of this begins again with that. -/
theorem tunnel_exactly_once (hP : P.Lawful) (hk : Duplex.Paired keys) (key : NodePublic)
    (source : Source) (path : Datapath)
    (hpath : path.node.peer = some ⟨key, Session.new (keys .b), source⟩)
    (evs : List TrafficEvent) (hquiet : (start keys path).QuietRun P evs) :
    let w := (start keys path).run P evs
    (∃ source', w.path.node.peer = some ⟨key, w.duplex.ends .b, source'⟩) ∧
    tunnelled w.outs = (w.duplex.opened .b).filterMap w.text ∧
    (w.duplex.opened .b).Nodup ∧
    (∀ c ∈ w.duplex.opened .b, ∃ payload packet,
      (w.duplex.sent .a)[c.toNat]? = some (payload, packet) ∧
      ∃ outLen, .peerSends payload outLen ∈ evs) ∧
    (∀ i payload packet, (w.duplex.sent .a)[i]? = some (payload, packet) →
      packet.length ≤ bufferLen → UInt64.ofNat i ∉ w.duplex.opened .b →
      (∀ j ∈ w.duplex.opened .b, j.toNat < i + 2048) →
      ∀ e source', w.path.nodeEvent e = some (.inbound packet source') →
        tunnelled (w.path.step (P.ideal w.duplex.log) e).2 =
          (Node.forTunnel (padded payload)).toList) ∧
    ∀ packet res e source', w.path.nodeEvent e = some (.inbound packet source') →
      Responder.consumeInitiation P w.path.node.nodeKey packet = .ok res →
        ∃ keys', (w.path.step (P.ideal w.duplex.log) e).1.node.peer =
          some ⟨res.2.peerStatic, Session.new keys', source'⟩ := by
  intro w
  have hw : Inv P keys key evs w := Inv.of_start hP hk source hpath hquiet
  obtain ⟨hnodup, hlt⟩ := hw.duplex.opened hk .b
  refine ⟨hw.slot, hw.tunnel, hnodup, fun c hc => ?_, ?_, ?_⟩
  · obtain ⟨p, hp⟩ : ∃ p, (w.duplex.sent .a)[c.toNat]? = some p :=
      ⟨_, List.getElem?_eq_getElem (hlt c hc)⟩
    exact ⟨p.1, p.2, hp, hw.asked p (List.mem_of_getElem? hp)⟩
  · intro i payload packet hi hlen hfresh hwin e source' hev
    obtain ⟨_, hslot⟩ := hw.slot
    obtain ⟨-, hout⟩ := w.path.step_node (P := P.ideal w.duplex.log) e
    rw [hout, hev]
    simp only
    rw [Node.handed_handle hP hw.duplex hslot rfl, hw.reads_sent hk hi hlen hfresh hwin]
    rfl
  · intro packet res e source' hev hres
    obtain ⟨hnode, -⟩ := w.path.step_node (P := P.ideal w.duplex.log) e
    rw [hnode, hev]
    exact Node.handle_renewed hP hres source'

/-- Three bytes for the tunnel, by UDP. -/
theorem tunnel_exactly_once_udp :
    let P := checksumPrimitives
    let keys (side : Side) : SessionKeys :=
      if side = .a then ⟨Vector.replicate 32 1, Vector.replicate 32 2, 10, 20⟩
      else ⟨Vector.replicate 32 2, Vector.replicate 32 1, 20, 10⟩
    let ep : Endpoint := ⟨#v[192, 168, 1, 7], 41641⟩
    let node : Node :=
      { Node.new P ⟨Vector.replicate 32 3⟩ ⟨Vector.replicate 32 4⟩ 9 with
        peer := some ⟨⟨Vector.replicate 32 5⟩, Session.new (keys .b), .udp ep⟩ }
    let w := (start keys (Datapath.start node)).run P [.peerSends [1, 2, 3] 64]
    P.Lawful ∧ Duplex.Paired keys ∧
      ∃ packet, (w.duplex.sent .a)[0]? = some ([1, 2, 3], packet) ∧
        tunnelled (w.path.step (P.ideal w.duplex.log) (.udp packet ep)).2 =
          [padded [1, 2, 3]] := by
  intro P keys ep node w
  have hk : Duplex.Paired keys := by
    refine ⟨fun side => ?_, fun side => ?_⟩
    · cases side <;> exact ⟨rfl, rfl, rfl, rfl⟩
    · cases side <;> decide
  refine ⟨checksumAead_lawful, hk, _, rfl, ?_⟩
  exact (tunnel_exactly_once checksumAead_lawful hk ⟨Vector.replicate 32 5⟩ (.udp ep)
    (Datapath.start node) rfl [.peerSends [1, 2, 3] 64] ⟨trivial, trivial⟩).2.2.2.2.1 0 [1, 2, 3]
    _ rfl (by decide) List.not_mem_nil (fun j hj => absurd hj List.not_mem_nil) (.udp _ ep) _ rfl

/-- A step that adds one packet for the peer: the peer can open it. -/
theorem Inv.newest_opens (hk : Duplex.Paired keys) (hw : Inv P keys key evs w) {w' : Traffic}
    {evs' : List TrafficEvent} (hw' : Inv P keys key evs' w')
    (hopened : w'.duplex.opened .a = w.duplex.opened .a) {payload cipher : List UInt8}
    (hsent : w'.duplex.sent .b = w.duplex.sent .b ++ [(payload, cipher)]) :
    ((w'.duplex.ends .a).decrypt (P.ideal w'.duplex.log).toAead cipher).2 =
      .ok (padded payload) := by
  refine hw'.duplex.decrypt_newest hk hsent fun c hc => ?_
  rw [hopened] at hc
  exact (hw.duplex.opened hk .a).2 c hc

theorem Inv.outbound (hP : P.Lawful) (hk : Duplex.Paired keys) (hw : Inv P keys key evs w)
    {source : Source} (hslot : w.path.node.peer = some ⟨key, w.duplex.ends .b, source⟩)
    {packet : List UInt8} (hfits : (w.duplex.ends .b).Fits packet bufferLen) :
    ∃ cipher, w.path.Emits (P.ideal w.duplex.log) packet cipher source ∧
      (w.step P (.path (.outbound packet))).duplex.sent .b =
        w.duplex.sent .b ++ [(packet, cipher)] ∧
      (((w.step P (.path (.outbound packet))).duplex.ends .a).decrypt
        (P.ideal (w.step P (.path (.outbound packet))).duplex.log).toAead cipher).2 =
          .ok (padded packet) := by
  obtain ⟨session, cipher, he, -, hsent⟩ := Duplex.sent_of_fits hP
    (show P.encryptInPlaceDetached = P.toAead.encryptInPlaceDetached from rfl) w.duplex
    (by decide) hfits
  refine ⟨cipher, Datapath.step_emits hslot he, hsent, ?_⟩
  have hopened : (w.step P (.path (.outbound packet))).duplex.opened .a = w.duplex.opened .a :=
    congrFun (Duplex.opened_encrypt w.duplex .b packet bufferLen) .a
  have hquiet : w.Quiet P (.path (.outbound packet)) := by
    intro ev hev
    obtain rfl := Option.some.inj hev
    trivial
  exact hw.newest_opens hk (hw.path hP hk hquiet) hopened hsent

/-- A ping that is read is answered along the way it came, and the peer can open
the answer. -/
theorem Inv.ping (hP : P.Lawful) (hk : Duplex.Paired keys) (hw : Inv P keys key evs w)
    {packet plain : List UInt8} {ping : Tsmp.Ping}
    (hr : Node.reads (P.ideal w.duplex.log) (w.duplex.ends .b) packet = some plain)
    (hping : Tsmp.parsePing plain = some ping)
    (hlim : (w.duplex.ends .b).sendCounter < rejectAfterMessages) {e : Event} {source : Source}
    (hev : w.path.nodeEvent e = some (.inbound packet source)) :
    ∃ cipher, (w.path.step (P.ideal w.duplex.log) e).2 = [.back cipher source] ∧
      (w.step P (.path e)).duplex.sent .b =
        w.duplex.sent .b ++ [(Tsmp.pongBytes ping, cipher)] ∧
      (((w.step P (.path e)).duplex.ends .a).decrypt
        (P.ideal (w.step P (.path e)).duplex.log).toAead cipher).2 =
          .ok (padded (Tsmp.pongBytes ping)) := by
  obtain ⟨_, hslot⟩ := hw.slot
  have hsends := Session.decrypt_sendsLike (w.duplex.aead P.encryptInPlaceDetached)
    (w.duplex.ends .b) packet
  have hends := Duplex.ends_arrive (E := P.encryptInPlaceDetached) w.duplex .b packet
  have hlog := Duplex.log_arrive (E := P.encryptInPlaceDetached) w.duplex .b packet
  have hfits : ((w.duplex.step P.encryptInPlaceDetached (.arrive .b packet)).ends .b).Fits
      (Tsmp.pongBytes ping) bufferLen := by
    refine ⟨?_, ?_⟩
    · rw [hends, hsends.counter]
      exact hlim
    · rw [Node.length_pongBytes]
      decide
  obtain ⟨session, cipher, he, hlen, hsent⟩ := Duplex.sent_of_fits hP
    (show P.encryptInPlaceDetached = P.toAead.encryptInPlaceDetached from rfl)
    (w.duplex.step P.encryptInPlaceDetached (.arrive .b packet)) (by decide) hfits
  -- the packet arrives, and then the pong is encrypted
  have hduplex : (w.step P (.path e)).duplex =
      (w.duplex.step P.encryptInPlaceDetached (.arrive .b packet)).step P.encryptInPlaceDetached
        (.encrypt .b (Tsmp.pongBytes ping) bufferLen) := by
    rw [step_duplex, calls, hev]
    simp only [Node.calls, hr, Node.pongTo_ping hping]
    rfl
  rw [Duplex.sent_arrive, ← hduplex] at hsent
  have hopened : (w.step P (.path e)).duplex.opened .a = w.duplex.opened .a := by
    rw [hduplex, Duplex.opened_encrypt, Duplex.opened_arrive]
    exact Function.update_of_ne (by decide) _ _
  rw [hends, Duplex.aead, hlog] at he
  have hreply := Node.handle_tsmp (Q := P.ideal w.duplex.log) hslot hr hping he source
  have hquiet : w.Quiet P (.path e) := by
    intro ev hev'
    obtain rfl := Option.some.inj (hev.symm.trans hev')
    exact NodeEvent.quiet_of_transport P _ (Node.reads_some.mp hr).1 source
  exact ⟨cipher, Datapath.step_reply hev hreply hlen, hsent,
    hw.newest_opens hk (hw.path hP hk hquiet) hopened hsent⟩

end Traffic

end Fw

end Lando
