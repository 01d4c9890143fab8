/-
Lando/HostNode.lean

The host's datapath (`lando-host/src/node.rs`): WireGuard over the relay.

A relayed packet comes with the key the relay says it is from, `src`.  The
datapath consults three tables with two identities.  A handshake is authorised
by `src`, but its `Peer` and its session are stored under the static key that
the initiation authenticates; a transport packet looks its session up under
`src` again.

Around it are the relay connection, which may fail to send, and the TCP stack
inside the tunnel, whose packets the datapath encrypts.  Both are parameters
(`World`), as is the randomness an ephemeral is drawn from.  What a call did
to the sessions is put on record as `Effect`s.
-/
import Lando.Peer
import Lando.Disco
import Mathlib.Logic.Function.Basic

namespace Lando.Host.Node

open Bytes

/-! ### The datapath -/

/-- What surrounds the datapath. -/
structure World where
  /-- The relay connection. -/
  Relay : Type
  /-- `DerpClient::send_packet`. -/
  sendPacket : Relay → Key → List UInt8 → Relay × Except String Unit
  /-- The TCP stack inside the tunnel. -/
  Stack : Type
  /-- `TunnelStack::new`, with the configured ports. -/
  newStack : Vector UInt8 4 → Stack
  /-- `TunnelDevice::push_inbound`. -/
  pushInbound : Stack → List UInt8 → Stack
  /-- `poll`, `serve`, `poll` and `relisten`, and all that can be popped then. -/
  turn : Stack → ℕ → Stack × List (List UInt8)

/-- The messages of the source, with what they quote. -/
inductive Error
  /-- "empty relayed packet". -/
  | empty
  /-- "refusing handshake … — not in the netmap". -/
  | notInNetmap (src : Key)
  /-- "bad initiation". -/
  | badInitiation (e : WgError)
  /-- "replayed handshake". -/
  | replayedHandshake (e : WgError)
  /-- "building response". -/
  | buildingResponse (e : WgError)
  /-- "transport packet with no session". -/
  | noSession
  /-- "decrypt failed". -/
  | decryptFailed (e : WgError)
  /-- "pong buffer too small". -/
  | pongBuffer
  /-- "encrypting pong". -/
  | encryptingPong (e : WgError)
  /-- "no session for stack output". -/
  | noSessionForStack
  /-- "encrypting tunnel packet". -/
  | encryptingTunnel (e : WgError)
  /-- "unhandled WireGuard message type". -/
  | unhandled (kind : UInt8)
  /-- An error of the relay connection. -/
  | relay (e : String)
  deriving DecidableEq

/-- What a call did to the sessions. -/
inductive Effect
  /-- A session was installed for this static key, by an initiation with this
  timestamp. -/
  | installed (key : Key) (timestamp : Tai64n)
  /-- A packet was decrypted under the session of this key. -/
  | decrypted (key : Key) (plain : List UInt8)
  /-- A packet was encrypted under the session of this key. -/
  | encrypted (key : Key) (payload : List UInt8)
  deriving DecidableEq

variable (P : Primitives) (W : World)

/-- The relay connection and the sessions in flight (`Sessions`). -/
structure Datapath where
  client : W.Relay
  peers : Key → Option Peer
  sessions : Key → Option Session
  nextIndex : UInt32
  stack : Option W.Stack
  /-- The peer the stack's traffic belongs to. -/
  tunnelPeer : Option Key

/-- What a call leaves, did and returns. -/
abbrev Outcome := Datapath W × List Effect × Except Error Unit

variable {W}

namespace Datapath

/-- `Sessions::new`. -/
def start (client : W.Relay) : Datapath W where
  client := client
  peers := fun _ => none
  sessions := fun _ => none
  nextIndex := 1
  stack := none
  tunnelPeer := none

/-- The peer under its key. -/
def setPeer (d : Datapath W) (key : Key) (peer : Peer) : Datapath W :=
  { d with peers := Function.update d.peers key (some peer) }

/-- The session under its key. -/
def setSession (d : Datapath W) (key : Key) (session : Session) : Datapath W :=
  { d with sessions := Function.update d.sessions key (some session) }

/-- `take_index`: the index is `d.nextIndex`. -/
def takeIndex (d : Datapath W) : Datapath W :=
  { d with nextIndex := max (d.nextIndex + 1) 1 }

/-- The loop of `drain_stack`: encrypts and sends what the stack put out. -/
def sendPending (d : Datapath W) (peer : Key) (session : Session) :
    List (List UInt8) → Outcome W
  | [] => (d, [], .ok ())
  | out :: pending =>
      match session.encrypt P.toAead out (out.length + 64) with
      | (session, .error e) => (d.setSession peer session, [], .error (.encryptingTunnel e))
      | (session, .ok packet) =>
          match W.sendPacket d.client peer packet with
          | (client, .error e) =>
              ({ d.setSession peer session with client := client }, [.encrypted peer out],
                .error (.relay e))
          | (client, .ok ()) =>
              let r := sendPending { d.setSession peer session with client := client } peer session
                pending
              (r.1, .encrypted peer out :: r.2.1, r.2.2)

/-- Advances the TCP stack and relays whatever it wants to send. -/
def drainStack (d : Datapath W) (now : ℕ) : Outcome W :=
  match d.stack, d.tunnelPeer with
  | some stack, some peer =>
      let (stack, pending) := W.turn stack now
      let d := { d with stack := some stack }
      if pending = [] then (d, [], .ok ())
      else
        match d.sessions peer with
        | none => (d, [], .error .noSessionForStack)
        | some session => d.sendPending P peer session pending
  | _, _ => (d, [], .ok ())

/-- Runs one turn of the TCP stack for a packet that arrived in the tunnel. -/
def feedStack (d : Datapath W) (src : Key) (packet : List UInt8) (now : ℕ) : Outcome W :=
  if packet.length < 20 ∨ packet.getD 0 0 >>> 4 ≠ 4 then (d, [], .ok ())
  else
    -- the stack's own address is the destination of the first packet
    let stack := d.stack.getD (W.newStack (read 4 packet 16))
    drainStack P { d with stack := some (W.pushInbound stack packet), tunnelPeer := some src } now

/-- The control plane has told us about this key. -/
def listed (known : List NodePublic) (key : Key) : Bool := known.any fun p => decide (p.bytes = key)

/-- The initiation arm of `handle_packet`: the netmap is asked for the key that the
relay gives as the source. -/
def handleInitiation (nodeKey : NodePrivate) (d : Datapath W) (src : Key) (data : List UInt8)
    (known : List NodePublic) (ephemeral : NodePrivate) (now : ℕ) : Outcome W :=
  if !(known.isEmpty || listed known src) then (d, [], .error (.notInNetmap src))
  else
    match Responder.consumeInitiation P nodeKey data with
    | .error e => (d, [], .error (.badInitiation e))
    | .ok (responder, learned) =>
        let key := learned.peerStatic.bytes
        let peer := (d.peers key).getD (Peer.new learned.peerStatic)
        match peer.acceptHandshakeTimestamp learned.timestamp with
        | (peer, .error e) => (d.setPeer key peer, [], .error (.replayedHandshake e))
        | (peer, .ok ()) =>
            let index := d.nextIndex
            let d := (d.setPeer key peer).takeIndex
            match responder.respond P ephemeral index with
            | .error e => (d, [], .error (.buildingResponse e))
            | .ok (response, keys) =>
                match W.sendPacket d.client src response with
                | (client, .error e) => ({ d with client := client }, [], .error (.relay e))
                | (client, .ok ()) =>
                    let d := { d with client := client }
                    let d := d.setPeer key (peer.installSession keys now false)
                    (d.setSession key (Session.new keys), [.installed key learned.timestamp],
                      .ok ())

/-- Answers a TSMP ping under the session it came in. -/
def answerPing (d : Datapath W) (src : Key) (session : Session) (ping : Tsmp.Ping) : Outcome W :=
  match Tsmp.writePong ping 64 with
  | none => (d, [], .error .pongBuffer)
  | some pong =>
      match session.encrypt P.toAead pong 256 with
      | (session, .error e) => (d.setSession src session, [], .error (.encryptingPong e))
      | (session, .ok packet) =>
          match W.sendPacket d.client src packet with
          | (client, .error e) =>
              ({ d.setSession src session with client := client }, [.encrypted src pong],
                .error (.relay e))
          | (client, .ok ()) =>
              ({ d.setSession src session with client := client }, [.encrypted src pong], .ok ())

/-- The transport arm of `handle_packet`: the session of the source opens the
packet, and TSMP pings are answered. -/
def handleTransport (d : Datapath W) (src : Key) (data : List UInt8) (now : ℕ) : Outcome W :=
  match d.sessions src with
  | none => (d, [], .error .noSession)
  | some session =>
      match session.decrypt P.toAead data with
      | (session, .error e) => (d.setSession src session, [], .error (.decryptFailed e))
      | (session, .ok plain) =>
          let d := d.setSession src session
          let r := match Tsmp.parsePing plain with
            | none => d.feedStack P src plain now
            | some ping => d.answerPing P src session ping
          (r.1, .decrypted src plain :: r.2.1, r.2.2)

/-- `handle_packet`: by the first byte. -/
def handlePacket (nodeKey : NodePrivate) (d : Datapath W) (src : Key) (data : List UInt8)
    (known : List NodePublic) (ephemeral : NodePrivate) (now : ℕ) : Outcome W :=
  match data.head? with
  | none => (d, [], .error .empty)
  | some kind =>
      if kind = msgInitiation then d.handleInitiation P nodeKey src data known ephemeral now
      -- a response to an initiation we never sent
      else if kind = msgResponse then (d, [], .ok ())
      else if kind = msgTransport then d.handleTransport P src data now
      else (d, [], .error (.unhandled kind))

end Datapath

/-- What the relay loop reacts to: a packet, with the peers known at that moment
and the ephemeral that would be drawn, or a tick. -/
inductive Input
  | packet (src : Key) (data : List UInt8) (known : List NodePublic) (ephemeral : NodePrivate)
  | tick

/-- The relay loop of `run`. -/
def step (nodeKey : NodePrivate) :
    Timed.Machine (Datapath W) Input (List Effect × Except Error Unit)
  | d, now, .packet src data known ephemeral =>
      d.handlePacket P nodeKey src data known ephemeral now
  | d, now, .tick => d.drainStack P now

/-! ### What one call can do -/

end Lando.Host.Node

namespace Lando

/-- A timestamp is refused and changes nothing, or it is newer than the last and
takes its place. -/
theorem Peer.acceptHandshakeTimestamp_cases (p : Peer) (ts : Tai64n) :
    (∃ prev, p.lastHandshakeTimestamp = some prev ∧ ts.isNewerThan prev = false ∧
      p.acceptHandshakeTimestamp ts = (p, .error .replayedHandshake)) ∨
    (∀ prev ∈ p.lastHandshakeTimestamp, ts.isNewerThan prev = true) ∧
      p.acceptHandshakeTimestamp ts = ({ p with lastHandshakeTimestamp := some ts }, .ok ()) := by
  unfold Peer.acceptHandshakeTimestamp
  rcases hlast : p.lastHandshakeTimestamp with - | prev
  · -- the first of a peer is newer than none
    refine .inr ⟨?_, rfl⟩
    intro prev hp
    cases hp
  · simp only
    rcases hnew : ts.isNewerThan prev with - | -
    · exact .inl ⟨prev, rfl, hnew, rfl⟩
    · refine .inr ⟨?_, rfl⟩
      intro prev' hp
      obtain rfl := Option.some.inj hp
      exact hnew

end Lando

namespace Lando.Host.Node

variable {P : Primitives} {W : World} {nodeKey : NodePrivate} {d : Datapath W} {src : Key}
  {data : List UInt8} {known : List NodePublic} {ephemeral : NodePrivate} {now : ℕ}

namespace Datapath

/-- The greatest timestamp accepted for a key. -/
def stored (d : Datapath W) (key : Key) : Option Tai64n :=
  (d.peers key).bind Peer.lastHandshakeTimestamp

/-- The record of a peer, made on demand. -/
def peerOf (d : Datapath W) (peer : NodePublic) : Peer := (d.peers peer.bytes).getD (Peer.new peer)

theorem lastHandshakeTimestamp_peerOf (d : Datapath W) (peer : NodePublic) :
    (d.peerOf peer).lastHandshakeTimestamp = d.stored peer.bytes := by
  unfold peerOf stored
  rcases d.peers peer.bytes with - | p
  · rfl
  · rfl

/-- Setting a record to what it is. -/
theorem setPeer_peerOf {d : Datapath W} {peer : NodePublic} {ts : Tai64n}
    (h : d.stored peer.bytes = some ts) : d.setPeer peer.bytes (d.peerOf peer) = d := by
  unfold stored at h
  rcases hp : d.peers peer.bytes with - | p
  · rw [hp] at h
    cases h
  · rw [setPeer, peerOf, hp, Option.getD_some, ← hp, Function.update_eq_self]

/-- The initiation would install a session if its source were authorised: it is
well made, its timestamp is newer than the stored one, and the response can be
built and sent. -/
structure Answerable (P : Primitives) (nodeKey : NodePrivate) (d : Datapath W) (src : Key)
    (data : List UInt8) (ephemeral : NodePrivate) (learned : Initiation) (keys : SessionKeys)
    (client : W.Relay) : Prop where
  consumed : ∃ responder response,
    Responder.consumeInitiation P nodeKey data = .ok (responder, learned) ∧
    responder.respond P ephemeral d.nextIndex = .ok (response, keys) ∧
    W.sendPacket d.client src response = (client, .ok ())
  newer : ∀ prev ∈ d.stored learned.peerStatic.bytes, learned.timestamp.isNewerThan prev = true

/-- The datapath after an initiation was answered. -/
def installed (d : Datapath W) (learned : Initiation) (keys : SessionKeys) (client : W.Relay)
    (now : ℕ) : Datapath W :=
  let peer := { d.peerOf learned.peerStatic with lastHandshakeTimestamp := some learned.timestamp }
  { d with
    client := client
    peers := Function.update d.peers learned.peerStatic.bytes
      (some (peer.installSession keys now false))
    sessions := Function.update d.sessions learned.peerStatic.bytes (some (Session.new keys))
    nextIndex := max (d.nextIndex + 1) 1 }

theorem sessions_installed (d : Datapath W) (learned : Initiation) (keys : SessionKeys)
    (client : W.Relay) (now : ℕ) :
    (d.installed learned keys client now).sessions learned.peerStatic.bytes =
      some (Session.new keys) :=
  Function.update_self _ _ _

theorem peers_installed (d : Datapath W) (learned : Initiation) (keys : SessionKeys)
    (client : W.Relay) (now : ℕ) :
    (d.installed learned keys client now).peers learned.peerStatic.bytes =
      some (({ d.peerOf learned.peerStatic with
        lastHandshakeTimestamp := some learned.timestamp }).installSession keys now false) :=
  Function.update_self _ _ _

theorem stored_installed (d : Datapath W) (learned : Initiation) (keys : SessionKeys)
    (client : W.Relay) (now : ℕ) :
    (d.installed learned keys client now).stored learned.peerStatic.bytes =
      some learned.timestamp := by
  rw [stored, peers_installed]
  rfl

/-- An initiation is turned away and changes nothing, or its timestamp is taken
but it gets no session, or it is answered. -/
theorem handleInitiation_cases (P : Primitives) (nodeKey : NodePrivate) (d : Datapath W)
    (src : Key) (data : List UInt8) (known : List NodePublic) (ephemeral : NodePrivate) (now : ℕ) :
    (∃ e, d.handleInitiation P nodeKey src data known ephemeral now = (d, [], .error e) ∧
      ∀ learned keys client, Answerable P nodeKey d src data ephemeral learned keys client →
        (known.isEmpty || listed known src) = false) ∨
    (∃ responder learned client e,
      Responder.consumeInitiation P nodeKey data = .ok (responder, learned) ∧
      (∀ prev ∈ d.stored learned.peerStatic.bytes, learned.timestamp.isNewerThan prev = true) ∧
      (∀ learned keys client, ¬ Answerable P nodeKey d src data ephemeral learned keys client) ∧
      d.handleInitiation P nodeKey src data known ephemeral now =
        ({ d with
            client := client
            peers := Function.update d.peers learned.peerStatic.bytes
              (some { d.peerOf learned.peerStatic with
                lastHandshakeTimestamp := some learned.timestamp })
            nextIndex := max (d.nextIndex + 1) 1 }, [], .error e)) ∨
    ∃ learned keys client, Answerable P nodeKey d src data ephemeral learned keys client ∧
      (known.isEmpty || listed known src) = true ∧
      d.handleInitiation P nodeKey src data known ephemeral now =
        (d.installed learned keys client now,
          [.installed learned.peerStatic.bytes learned.timestamp], .ok ()) := by
  unfold handleInitiation
  rcases hauth : known.isEmpty || listed known src with - | -
  · exact .inl ⟨_, rfl, fun _ _ _ _ => rfl⟩
  simp only [Bool.not_true, Bool.false_eq_true, if_false]
  rcases hc : Responder.consumeInitiation P nodeKey data with e | ⟨responder, learned⟩
  · refine .inl ⟨_, rfl, ?_⟩
    rintro learned keys client ⟨⟨responder, response, hok, -⟩, -⟩
    rw [hc] at hok
    cases hok
  simp only
  -- what is answered is what was consumed here
  have hsame : ∀ {l keys client}, Answerable P nodeKey d src data ephemeral l keys client →
      l = learned ∧ ∃ response, responder.respond P ephemeral d.nextIndex = .ok (response, keys) ∧
        W.sendPacket d.client src response = (client, .ok ()) := by
    rintro l keys client ⟨⟨responder', response, hok, hrespond, hsend⟩, -⟩
    rw [hc] at hok
    obtain ⟨rfl, rfl⟩ := Prod.mk.inj (Except.ok.inj hok)
    exact ⟨rfl, response, hrespond, hsend⟩
  have hpeer : (d.peers learned.peerStatic.bytes).getD (Peer.new learned.peerStatic) =
      d.peerOf learned.peerStatic := rfl
  rw [hpeer]
  rcases (d.peerOf learned.peerStatic).acceptHandshakeTimestamp_cases learned.timestamp with
    ⟨prev, hprev, hold, he⟩ | ⟨hnew, he⟩
  · rw [he]
    rw [lastHandshakeTimestamp_peerOf] at hprev
    refine .inl ⟨.replayedHandshake .replayedHandshake, ?_, ?_⟩
    · -- a stored timestamp means that the record was there already
      simp only
      rw [setPeer_peerOf hprev]
    · intro l keys client hl
      obtain ⟨rfl, -⟩ := hsame hl
      rw [hl.newer prev hprev] at hold
      cases hold
  · rw [he]
    rw [lastHandshakeTimestamp_peerOf] at hnew
    simp only
    -- from here on the timestamp is taken, whatever comes of the response
    rcases hr : responder.respond P ephemeral d.nextIndex with e | ⟨response, keys⟩
    · refine .inr (.inl ⟨responder, learned, d.client, _, rfl, hnew, ?_, rfl⟩)
      intro l keys client hl
      obtain ⟨-, response, hrespond, -⟩ := hsame hl
      rw [hr] at hrespond
      cases hrespond
    · simp only
      rcases hs : W.sendPacket d.client src response with ⟨client, e | ⟨⟩⟩
      · refine .inr (.inl ⟨responder, learned, client, .relay e, rfl, hnew, ?_, ?_⟩)
        · intro l keys' client' hl
          obtain ⟨-, response', hrespond, hsend⟩ := hsame hl
          rw [hr] at hrespond
          obtain ⟨rfl, rfl⟩ := Prod.mk.inj (Except.ok.inj hrespond)
          rw [hs] at hsend
          cases hsend
        · simp only [setPeer, takeIndex, hs]
      · refine .inr (.inr ⟨learned, keys, client, ⟨⟨responder, response, hc, hr, hs⟩, hnew⟩,
          trivial, ?_⟩)
        simp only [setPeer, takeIndex, setSession, hs, installed, Function.update_idem]

/-- Traffic uses the sessions there are, and neither the peers nor the next
index. -/
structure Traffic (A : Aead) (d d' : Datapath W) (effects : List Effect) : Prop where
  peers : d'.peers = d.peers
  nextIndex : d'.nextIndex = d.nextIndex
  sessions : ∀ k, ∃ uses, d'.sessions k = (d.sessions k).map fun s => s.used A uses
  installs : ∀ k ts, .installed k ts ∉ effects

namespace Traffic

variable {A : Aead} {d' d'' : Datapath W} {effects effects' : List Effect}

theorem refl (d : Datapath W) : Traffic A d d [] where
  peers := rfl
  nextIndex := rfl
  sessions := by
    intro k
    refine ⟨[], ?_⟩
    rcases d.sessions k with - | s <;> rfl
  installs := fun _ _ => List.not_mem_nil

/-- Outside the tables. -/
theorem aside (hp : d'.peers = d.peers) (hn : d'.nextIndex = d.nextIndex)
    (hs : d'.sessions = d.sessions) : Traffic A d d' [] where
  peers := hp
  nextIndex := hn
  sessions := by
    rw [hs]
    exact (refl d).sessions
  installs := fun _ _ => List.not_mem_nil

theorem trans (h : Traffic A d d' effects) (h' : Traffic A d' d'' effects') :
    Traffic A d d'' (effects ++ effects') where
  peers := h'.peers.trans h.peers
  nextIndex := h'.nextIndex.trans h.nextIndex
  sessions := by
    intro k
    obtain ⟨us, hus⟩ := h.sessions k
    obtain ⟨vs, hvs⟩ := h'.sessions k
    refine ⟨us ++ vs, ?_⟩
    rw [hvs, hus, Option.map_map]
    congr 1
    funext s
    exact (Session.used_append A s us vs).symm
  installs := by
    intro k ts hmem
    rcases List.mem_append.mp hmem with hmem | hmem
    · exact h.installs k ts hmem
    · exact h'.installs k ts hmem

/-- One use of the session of a key, and what goes on outside the tables. -/
theorem use {key : Key} {s : Session} (hs : d.sessions key = some s) (u : Session.Use)
    {client : W.Relay} (hd : d' = { d.setSession key (s.used A [u]) with client := client })
    (he : ∀ k ts, .installed k ts ∉ effects) : Traffic A d d' effects := by
  subst hd
  refine ⟨rfl, rfl, ?_, he⟩
  intro k
  by_cases hk : k = key
  · subst hk
    refine ⟨[u], ?_⟩
    show Function.update d.sessions k _ k = _
    rw [Function.update_self, hs, Option.map_some]
  · refine ⟨[], ?_⟩
    show Function.update d.sessions key _ k = _
    rw [Function.update_of_ne hk]
    rcases d.sessions k with - | s <;> rfl

end Traffic

theorem not_installed_encrypted {key : Key} {payload : List UInt8} (k : Key) (ts : Tai64n) :
    Effect.installed k ts ∉ [Effect.encrypted key payload] := by
  rw [List.mem_singleton]
  rintro ⟨⟩

theorem sendPending_traffic {peer : Key} {session : Session} {pending : List (List UInt8)}
    (hs : d.sessions peer = some session) :
    Traffic P.toAead d (d.sendPending P peer session pending).1
      (d.sendPending P peer session pending).2.1 := by
  induction pending generalizing d session with
  | nil => exact Traffic.refl d
  | cons out pending ih =>
    rw [sendPending]
    rcases he : session.encrypt P.toAead out (out.length + 64) with ⟨session', e | packet⟩
    · exact .use hs (.encrypt out (out.length + 64)) (by simp only [Session.used, he]; rfl)
        fun _ _ => List.not_mem_nil
    · simp only
      have huse : ∀ client, Traffic P.toAead d { d.setSession peer session' with client := client }
          [.encrypted peer out] := fun client =>
        .use hs (.encrypt out (out.length + 64)) (by simp only [Session.used, he]; rfl)
          not_installed_encrypted
      rcases W.sendPacket d.client peer packet with ⟨client, e | ⟨⟩⟩
      · exact huse client
      · exact (huse client).trans (ih (Function.update_self _ _ _))

theorem drainStack_traffic (P : Primitives) (d : Datapath W) (now : ℕ) :
    Traffic P.toAead d (d.drainStack P now).1 (d.drainStack P now).2.1 := by
  have haside : ∀ stack peer, Traffic P.toAead d { d with stack := stack, tunnelPeer := peer } [] :=
    fun stack peer => .aside rfl rfl rfl
  unfold drainStack
  rcases d.stack with - | stack
  · exact .refl d
  rcases d.tunnelPeer with - | peer
  · exact .refl d
  simp only
  split_ifs
  · exact haside _ _
  · rcases hs : d.sessions peer with - | session
    · exact haside _ _
    · exact (haside _ _).trans (sendPending_traffic hs)

theorem feedStack_traffic (P : Primitives) (d : Datapath W) (src : Key) (packet : List UInt8)
    (now : ℕ) :
    Traffic P.toAead d (d.feedStack P src packet now).1 (d.feedStack P src packet now).2.1 := by
  unfold feedStack
  split_ifs
  · exact .refl d
  · have haside : ∀ stack, Traffic P.toAead d { d with stack := some stack, tunnelPeer := some src }
        [] := fun stack => .aside rfl rfl rfl
    exact (haside _).trans (drainStack_traffic P _ now)

theorem answerPing_traffic {session : Session} (hs : d.sessions src = some session)
    (ping : Tsmp.Ping) :
    Traffic P.toAead d (d.answerPing P src session ping).1
      (d.answerPing P src session ping).2.1 := by
  unfold answerPing
  rcases Tsmp.writePong ping 64 with - | pong
  · exact .refl d
  simp only
  rcases he : session.encrypt P.toAead pong 256 with ⟨session', e | packet⟩
  · exact .use hs (.encrypt pong 256) (by simp only [Session.used, he]; rfl)
      fun _ _ => List.not_mem_nil
  · simp only
    have huse : ∀ client, Traffic P.toAead d { d.setSession src session' with client := client }
        [.encrypted src pong] := fun client =>
      .use hs (.encrypt pong 256) (by simp only [Session.used, he]; rfl) not_installed_encrypted
    rcases W.sendPacket d.client src packet with ⟨client, e | ⟨⟩⟩
    · exact huse client
    · exact huse client

theorem handleTransport_traffic (P : Primitives) (d : Datapath W) (src : Key) (data : List UInt8)
    (now : ℕ) :
    Traffic P.toAead d (d.handleTransport P src data now).1
      (d.handleTransport P src data now).2.1 := by
  unfold handleTransport
  rcases hs : d.sessions src with - | session
  · exact .refl d
  simp only
  rcases he : session.decrypt P.toAead data with ⟨session', e | plain⟩
  · exact .use hs (.decrypt data) (by simp only [Session.used, he]; rfl)
      fun _ _ => List.not_mem_nil
  · have hfirst : Traffic P.toAead d (d.setSession src session') [.decrypted src plain] := by
      refine .use hs (.decrypt data) (by simp only [Session.used, he]; rfl) ?_
      intro k ts
      rw [List.mem_singleton]
      rintro ⟨⟩
    simp only
    rcases Tsmp.parsePing plain with - | ping
    · exact hfirst.trans (feedStack_traffic P _ src plain now)
    · exact hfirst.trans (answerPing_traffic (Function.update_self _ _ _) ping)

/-- **What one packet can do.**  It is an initiation, or it is traffic. -/
theorem handlePacket_cases (P : Primitives) (nodeKey : NodePrivate) (d : Datapath W) (src : Key)
    (data : List UInt8) (known : List NodePublic) (ephemeral : NodePrivate) (now : ℕ) :
    (data.head? = some msgInitiation ∧
      d.handlePacket P nodeKey src data known ephemeral now =
        d.handleInitiation P nodeKey src data known ephemeral now) ∨
    data.head? ≠ some msgInitiation ∧
      Traffic P.toAead d (d.handlePacket P nodeKey src data known ephemeral now).1
        (d.handlePacket P nodeKey src data known ephemeral now).2.1 := by
  unfold handlePacket
  rcases data.head? with - | kind
  · exact .inr ⟨(Option.some_ne_none _).symm, .refl d⟩
  simp only
  split_ifs with h₁ h₂ h₃
  · exact .inl ⟨by rw [h₁], rfl⟩
  · exact .inr ⟨fun h => h₁ (Option.some.inj h), .refl d⟩
  · exact .inr ⟨fun h => h₁ (Option.some.inj h), handleTransport_traffic P d src data now⟩
  · exact .inr ⟨fun h => h₁ (Option.some.inj h), .refl d⟩

end Datapath

/-! ### Authorisation -/

open Datapath

/-- The session of `k` is neither created nor replaced: the table has what it
had, after some use, and the record of the peer has the sessions it had. -/
structure Untouched (A : Aead) (k : Key) (d d' : Datapath W) : Prop where
  table : ∃ uses, d'.sessions k = (d.sessions k).map fun s => s.used A uses
  current : (d'.peers k).bind Peer.current = (d.peers k).bind Peer.current
  previous : (d'.peers k).bind Peer.previous = (d.peers k).bind Peer.previous

theorem Datapath.Traffic.untouched {A : Aead} {d' : Datapath W} {effects : List Effect}
    (h : Traffic A d d' effects) (k : Key) : Untouched A k d d' :=
  ⟨h.sessions k, by rw [h.peers], by rw [h.peers]⟩

/-- A record made on demand, or one with another timestamp, has the sessions it
had. -/
theorem Datapath.bind_peerOf {β : Type} (d : Datapath W) (peer : NodePublic) (ts : Option Tai64n)
    (k : Key) {f : Peer → Option β} (hnew : ∀ key, f (Peer.new key) = none)
    (hts : ∀ p, f { p with lastHandshakeTimestamp := ts } = f p) :
    (Function.update d.peers peer.bytes
      (some { d.peerOf peer with lastHandshakeTimestamp := ts }) k).bind f =
      (d.peers k).bind f := by
  by_cases hk : k = peer.bytes
  · subst hk
    rw [Function.update_self, Option.bind_some, hts, peerOf]
    rcases d.peers peer.bytes with - | p
    · exact hnew peer
    · rfl
  · rw [Function.update_of_ne hk]

/-- A session is created or replaced only where it is put on record. -/
theorem untouched_of_not_installed (P : Primitives) (nodeKey : NodePrivate) (d : Datapath W)
    (now : ℕ) (i : Input) (k : Key)
    (hk : ∀ ts, .installed k ts ∉ (step P nodeKey d now i).2.1) :
    Untouched P.toAead k d (step P nodeKey d now i).1 := by
  cases i with
  | tick => exact (drainStack_traffic P d now).untouched k
  | packet src data known ephemeral =>
    simp only [step] at hk ⊢
    rcases handlePacket_cases P nodeKey d src data known ephemeral now with ⟨-, he⟩ | ⟨-, ht⟩
    · rw [he] at hk ⊢
      rcases handleInitiation_cases P nodeKey d src data known ephemeral now with
        ⟨e, he, -⟩ | ⟨responder, learned, client, e, -, -, -, he⟩ |
        ⟨learned, keys, client, -, -, he⟩
      · rw [he]
        exact (Traffic.refl d).untouched k
      · -- the record may be new, but has no sessions then
        rw [he]
        exact ⟨((Traffic.refl d).sessions k), bind_peerOf d _ _ k (fun _ => rfl) fun _ => rfl,
          bind_peerOf d _ _ k (fun _ => rfl) fun _ => rfl⟩
      · rw [he] at hk ⊢
        have hne : k ≠ learned.peerStatic.bytes := by
          rintro rfl
          exact hk learned.timestamp List.mem_cons_self
        refine ⟨?_, ?_, ?_⟩
        · show ∃ uses, Function.update d.sessions _ _ k = _
          rw [Function.update_of_ne hne]
          exact (Traffic.refl d).sessions k
        · show (Function.update d.peers _ _ k).bind Peer.current = _
          rw [Function.update_of_ne hne]
        · show (Function.update d.peers _ _ k).bind Peer.previous = _
          rw [Function.update_of_ne hne]
    · exact ht.untouched k

/-- A packet that installs a session does so for a static key that is listed,
and a handshake that authenticates another one is refused. -/
def RefusesUnlisted (P : Primitives) (nodeKey : NodePrivate) (d : Datapath W) (now : ℕ) :
    Input → Prop
  | .tick => True
  | .packet src data known ephemeral =>
      let r := d.handlePacket P nodeKey src data known ephemeral now
      (∀ k ts, .installed k ts ∈ r.2.1 → listed known k = true) ∧
      ∀ responder learned, Responder.consumeInitiation P nodeKey data = .ok (responder, learned) →
        listed known learned.peerStatic.bytes = false → ∃ e, r.2.2 = .error e

/-- An initiation relayed from a listed source, and acceptable but for its
static key, has a static key that is listed too. -/
def ListedStatic (P : Primitives) (nodeKey : NodePrivate) (d : Datapath W) (_now : ℕ) :
    Input → Prop
  | .tick => True
  | .packet src data known ephemeral =>
      listed known src = true → ∀ learned keys client,
        Answerable P nodeKey d src data ephemeral learned keys client →
          listed known learned.peerStatic.bytes = true

theorem Datapath.Answerable.unique {l l' : Initiation} {keys keys' : SessionKeys}
    {client client' : W.Relay} (h : Answerable P nodeKey d src data ephemeral l keys client)
    (h' : Answerable P nodeKey d src data ephemeral l' keys' client') :
    l = l' ∧ keys = keys' ∧ client = client' := by
  obtain ⟨_, _, hc, hr, hs⟩ := h.consumed
  obtain ⟨_, _, hc', hr', hs'⟩ := h'.consumed
  rw [hc] at hc'
  obtain ⟨rfl, rfl⟩ := Prod.mk.inj (Except.ok.inj hc')
  rw [hr] at hr'
  obtain ⟨rfl, rfl⟩ := Prod.mk.inj (Except.ok.inj hr')
  rw [hs] at hs'
  exact ⟨rfl, rfl, (Prod.mk.inj hs').1⟩

/-- An initiation that is answerable and authorised is answered. -/
theorem Datapath.Answerable.handlePacket {l : Initiation} {keys : SessionKeys} {client : W.Relay}
    (h : Answerable P nodeKey d src data ephemeral l keys client)
    (hauth : (known.isEmpty || listed known src) = true) (now : ℕ) :
    d.handlePacket P nodeKey src data known ephemeral now =
      (d.installed l keys client now, [.installed l.peerStatic.bytes l.timestamp], .ok ()) := by
  obtain ⟨responder, response, hconsume, -⟩ := h.consumed
  rcases handlePacket_cases P nodeKey d src data known ephemeral now with ⟨-, he⟩ | ⟨hhead, -⟩
  · rw [he]
    rcases handleInitiation_cases P nodeKey d src data known ephemeral now with
      ⟨e, -, hno⟩ | ⟨_, _, _, _, -, -, hno, -⟩ | ⟨l', keys', client', h', -, he⟩
    · rw [hno l keys client h] at hauth
      cases hauth
    · exact absurd h (hno l keys client)
    · obtain ⟨rfl, rfl, rfl⟩ := h.unique h'
      exact he
  · exact absurd (Responder.head_of_consumeInitiation hconsume) hhead

/-- A session that is put on record was the answer to an initiation. -/
theorem Datapath.answered_of_mem {k : Key} {ts : Tai64n}
    (h : .installed k ts ∈ (d.handlePacket P nodeKey src data known ephemeral now).2.1) :
    ∃ learned keys client, Answerable P nodeKey d src data ephemeral learned keys client ∧
      learned.peerStatic.bytes = k ∧ learned.timestamp = ts ∧
      d.handlePacket P nodeKey src data known ephemeral now =
        (d.installed learned keys client now,
          [.installed learned.peerStatic.bytes learned.timestamp], .ok ()) := by
  rcases handlePacket_cases P nodeKey d src data known ephemeral now with ⟨-, he⟩ | ⟨-, ht⟩
  · rw [he] at h ⊢
    rcases handleInitiation_cases P nodeKey d src data known ephemeral now with
      ⟨e, he, -⟩ | ⟨_, _, _, _, -, -, -, he⟩ | ⟨learned, keys, client, hans, -, he⟩
    · rw [he] at h
      cases h
    · rw [he] at h
      cases h
    · rw [he] at h
      obtain ⟨rfl, rfl⟩ := Effect.installed.inj (List.mem_singleton.mp h)
      exact ⟨learned, keys, client, hans, rfl, rfl, he⟩
  · exact absurd h (ht.installs k ts)

/-- The same of a step. -/
theorem installed_of_mem {k : Key} {ts : Tai64n} {i : Input}
    (h : .installed k ts ∈ (step P nodeKey d now i).2.1) :
    ∃ learned keys client, learned.peerStatic.bytes = k ∧ learned.timestamp = ts ∧
      step P nodeKey d now i =
        (d.installed learned keys client now,
          [.installed learned.peerStatic.bytes learned.timestamp], .ok ()) := by
  cases i with
  | tick => exact absurd h ((drainStack_traffic P d now).installs k ts)
  | packet src data known ephemeral =>
    obtain ⟨learned, keys, client, -, hk, hts, he⟩ := answered_of_mem h
    exact ⟨learned, keys, client, hk, hts, he⟩

theorem refusesUnlisted_iff (P : Primitives) (nodeKey : NodePrivate) (d : Datapath W) (now : ℕ)
    (src : Key) (data : List UInt8) {known : List NodePublic} (ephemeral : NodePrivate)
    (hknown : known ≠ []) :
    RefusesUnlisted P nodeKey d now (.packet src data known ephemeral) ↔
      ListedStatic P nodeKey d now (.packet src data known ephemeral) := by
  have hempty : known.isEmpty = false := List.isEmpty_eq_false_iff.mpr hknown
  simp only [RefusesUnlisted, ListedStatic]
  rcases handlePacket_cases P nodeKey d src data known ephemeral now with ⟨-, he⟩ | ⟨hhead, ht⟩
  · rw [he]
    rcases handleInitiation_cases P nodeKey d src data known ephemeral now with
      ⟨e, he, hno⟩ | ⟨responder, learned, client, e, -, -, hno, he⟩ |
      ⟨learned, keys, client, hans, hauth, he⟩
    · -- turned away, and if only the source was wrong it was not listed
      rw [he]
      refine iff_of_true ⟨fun k ts hmem => absurd hmem List.not_mem_nil, fun _ _ _ _ => ⟨e, rfl⟩⟩ ?_
      intro hsrc learned keys client hans
      have hfalse := hno learned keys client hans
      rw [hsrc, Bool.or_true] at hfalse
      cases hfalse
    · -- not answered, so there is no static key to ask about
      rw [he]
      refine iff_of_true ⟨fun k ts hmem => absurd hmem List.not_mem_nil, fun _ _ _ _ => ⟨e, rfl⟩⟩ ?_
      exact fun _ l keys client hans => absurd hans (hno l keys client)
    · -- answered: both sides say that its static key is listed
      rw [he]
      rw [hempty, Bool.false_or] at hauth
      obtain ⟨responder, -, hconsume, -⟩ := hans.consumed
      constructor
      · rintro ⟨hinst, -⟩ - l keys' client' hans'
        rw [← (hans.unique hans').1]
        exact hinst _ _ List.mem_cons_self
      · intro hlisted
        have hstatic := hlisted hauth learned keys client hans
        refine ⟨?_, ?_⟩
        · intro k ts hmem
          obtain ⟨rfl, -⟩ := Effect.installed.inj (List.mem_singleton.mp hmem)
          exact hstatic
        · intro responder' l hl hfalse
          rw [hconsume] at hl
          obtain ⟨-, rfl⟩ := Prod.mk.inj (Except.ok.inj hl)
          rw [hstatic] at hfalse
          cases hfalse
  · -- not an initiation at all
    have hno : ∀ {res}, Responder.consumeInitiation P nodeKey data ≠ .ok res :=
      fun h => hhead (Responder.head_of_consumeInitiation h)
    refine iff_of_true ⟨fun k ts hmem => absurd hmem (ht.installs k ts),
      fun _ _ hc => absurd hc hno⟩ ?_
    intro _ learned keys client hans
    obtain ⟨responder, response, hc, -⟩ := hans.consumed
    exact absurd hc hno

/-- **Who gets a session.**  In every run with a netmap, from any state: sessions
go to listed static keys only, and every other handshake is refused, exactly
when each acceptable initiation relayed from a listed source has a listed static
key.  A session is created or replaced only for the keys on record. -/
theorem unlisted_refused_iff (P : Primitives) (nodeKey : NodePrivate) (d : Datapath W)
    (inputs : List (ℕ × Input))
    (hknown : ∀ t src data known ephemeral,
      (t, Input.packet src data known ephemeral) ∈ inputs → known ≠ []) :
    (Timed.Along (step P nodeKey) (RefusesUnlisted P nodeKey) d inputs ↔
      Timed.Along (step P nodeKey) (ListedStatic P nodeKey) d inputs) ∧
    Timed.Along (step P nodeKey) (fun d now i => ∀ k,
      (∀ ts, .installed k ts ∉ (step P nodeKey d now i).2.1) →
        Untouched P.toAead k d (step P nodeKey d now i).1) d inputs := by
  refine ⟨?_, Timed.along_of_invariant (I := fun _ => True) (fun _ _ _ => trivial)
    (fun d now i _ k => untouched_of_not_installed P nodeKey d now i k) trivial inputs⟩
  refine Timed.along_congr (I := fun _ => True) (fun _ _ _ => trivial) ?_ trivial
  rintro ⟨t, i⟩ hmem d -
  cases i with
  | tick => exact Iff.rfl
  | packet src data known ephemeral =>
    exact refusesUnlisted_iff P nodeKey d t src data ephemeral (hknown _ _ _ _ _ hmem)

/-- A relay that takes everything and a stack that says nothing. -/
def quietWorld : World where
  Relay := Unit
  sendPacket := fun _ _ _ => ((), .ok ())
  Stack := Unit
  newStack := fun _ => ()
  pushInbound := fun _ _ => ()
  turn := fun _ _ => ((), [])

/-- A peer that knows the node's key makes an initiation that can be answered. -/
theorem exists_answerable (hP : P.Lawful) (hD : P.DhCommutes) (d : Datapath quietWorld)
    (src : Key) (i ei nodeKey ephemeral : NodePrivate) (xi : UInt32) (ts : Tai64n)
    (hnew : ∀ prev ∈ d.stored (i.public P).bytes, ts.isNewerThan prev = true) :
    ∃ initiator msg keys, Initiator.new P i (nodeKey.public P) ei xi ts = .ok (initiator, msg) ∧
      Answerable P nodeKey d src msg ephemeral ⟨i.public P, ts, xi⟩ keys () ∧
      keys.localIndex = d.nextIndex := by
  obtain ⟨initiator, msg, responder, hmsg, -, hconsume⟩ :=
    Initiator.new_accepted hP hD i nodeKey ei xi ts
  obtain ⟨response, s, st, k, -, hrespond, -⟩ := responder.respond_eq hP ephemeral d.nextIndex
  exact ⟨initiator, msg, _, hmsg, ⟨⟨responder, response, hconsume, hrespond, rfl⟩, hnew⟩, rfl⟩

/-- No timestamp is stored at the start. -/
theorem stored_start (client : W.Relay) (ts : Tai64n) (k : Key) :
    ∀ prev ∈ (start client : Datapath W).stored k, ts.isNewerThan prev = true :=
  fun _ h => by cases h

/-- A listed peer, relayed under its own key, gets its session. -/
theorem unlisted_refused_iff_own_key :
    let P := checksumPrimitives
    let key (n : UInt8) : NodePrivate := ⟨Vector.replicate 32 n⟩
    let static := (key 1).public P
    ∃ initiator msg,
      Initiator.new P (key 1) ((key 2).public P) (key 3) 7 ⟨Vector.replicate 12 5⟩ =
        .ok (initiator, msg) ∧
      Timed.Along (step P (key 2)) (RefusesUnlisted P (key 2)) (start () : Datapath quietWorld)
        [(0, .packet static.bytes msg [static] (key 4))] := by
  intro P key static
  obtain ⟨initiator, msg, keys, hmsg, hans, -⟩ :=
    exists_answerable checksumAead_lawful checksumPrimitives_dhCommutes
      (start () : Datapath quietWorld) static.bytes (key 1) (key 3) (key 2) (key 4) 7
      ⟨Vector.replicate 12 5⟩ (stored_start (W := quietWorld) () _ _)
  refine ⟨initiator, msg, hmsg, ?_⟩
  refine ((unlisted_refused_iff P (key 2) _ _ ?_).1).mpr ⟨?_, trivial⟩
  · intro t src data known ephemeral hmem
    obtain ⟨-, hi⟩ := Prod.mk.inj (List.mem_singleton.mp hmem)
    obtain ⟨-, -, rfl, -⟩ := Input.packet.inj hi
    exact List.cons_ne_nil _ _
  · intro hsrc l keys' client hans'
    obtain ⟨rfl, -⟩ := hans.unique hans'
    exact hsrc

/-- A peer that the netmap does not list gets a session all the same when its
initiation is relayed from a key that is listed. -/
theorem unlisted_static_gets_session :
    let P := checksumPrimitives
    let key (n : UInt8) : NodePrivate := ⟨Vector.replicate 32 n⟩
    let static := (key 1).public P
    let other : NodePublic := ⟨Vector.replicate 32 9⟩
    ∃ initiator msg,
      Initiator.new P (key 1) ((key 2).public P) (key 3) 7 ⟨Vector.replicate 12 5⟩ =
        .ok (initiator, msg) ∧
      let inputs := [(0, Input.packet other.bytes msg [other] (key 4))]
      let d : Datapath quietWorld := Timed.run (step P (key 2)) (start ()) inputs
      listed [other] static.bytes = false ∧ (d.sessions static.bytes).isSome = true ∧
      ((d.peers static.bytes).bind Peer.current).isSome = true ∧
      ¬ Timed.Along (step P (key 2)) (RefusesUnlisted P (key 2)) (start () : Datapath quietWorld)
        inputs := by
  intro P key static other
  obtain ⟨initiator, msg, keys, hmsg, hans, -⟩ :=
    exists_answerable checksumAead_lawful checksumPrimitives_dhCommutes
      (start () : Datapath quietWorld) other.bytes (key 1) (key 3) (key 2) (key 4) 7
      ⟨Vector.replicate 12 5⟩ (stored_start (W := quietWorld) () _ _)
  have hauth : (List.isEmpty [other] || listed [other] other.bytes) = true := by decide
  have hpacket := hans.handlePacket hauth 0
  have hunlisted : listed [other] static.bytes = false := by decide +kernel
  refine ⟨initiator, msg, hmsg, hunlisted, ?_, ?_, ?_⟩
  · simp only [Timed.run, step]
    rw [hpacket]
    exact congrArg Option.isSome (sessions_installed _ _ keys () 0)
  · simp only [Timed.run, step]
    rw [hpacket]
    exact congrArg (fun p => (p.bind Peer.current).isSome)
      (peers_installed (start () : Datapath quietWorld) _ keys () 0)
  · rintro ⟨hstep, -⟩
    simp only [RefusesUnlisted] at hstep
    rw [hpacket] at hstep
    have hlisted := hstep.1 _ _ List.mem_cons_self
    rw [hunlisted] at hlisted
    cases hlisted

/-! ### Replayed initiations -/

theorem isNewerThan_iff {a b : Tai64n} :
    a.isNewerThan b = true ↔ b.bytes.toList < a.bytes.toList := decide_eq_true_iff

theorem isNewerThan_trans {a b c : Tai64n} (h : a.isNewerThan b = true)
    (h' : b.isNewerThan c = true) : a.isNewerThan c = true := by
  rw [isNewerThan_iff] at h h' ⊢
  exact List.lt_trans h' h

theorem isNewerThan_asymm {a b : Tai64n} (h : a.isNewerThan b = true) :
    b.isNewerThan a = false := by
  rw [isNewerThan_iff] at h
  rw [← Bool.not_eq_true, isNewerThan_iff]
  exact List.lt_asymm h

/-- The timestamp that an effect put on record for a key. -/
def Effect.timestampFor (k : Key) : Effect → Option Tai64n
  | .installed key ts => if key = k then some ts else none
  | _ => none

/-- The timestamps of the initiations that installed a session for a key in a
run, in order. -/
def installTimes (P : Primitives) (nodeKey : NodePrivate) (d : Datapath W)
    (inputs : List (ℕ × Input)) (k : Key) : List Tai64n :=
  ((Timed.trace (step P nodeKey) (fun _ => true) d inputs).flatMap Prod.fst).filterMap
    (Effect.timestampFor k)

theorem installTimes_cons (P : Primitives) (nodeKey : NodePrivate) (d : Datapath W)
    (x : ℕ × Input) (inputs : List (ℕ × Input)) (k : Key) :
    installTimes P nodeKey d (x :: inputs) k =
      (step P nodeKey d x.1 x.2).2.1.filterMap (Effect.timestampFor k) ++
        installTimes P nodeKey (step P nodeKey d x.1 x.2).1 inputs k := by
  rw [installTimes, Timed.trace, if_pos rfl, List.flatMap_cons, List.filterMap_append]
  rfl

/-- What a call leaves as the stored timestamp of a key: what it was, or a newer
one. -/
def Advances (d d' : Datapath W) (k : Key) : Prop :=
  d'.stored k = d.stored k ∨
    ∃ ts, d'.stored k = some ts ∧ ∀ prev ∈ d.stored k, ts.isNewerThan prev = true

theorem Datapath.Traffic.timestamps {A : Aead} {d' : Datapath W} {effects : List Effect}
    (h : Traffic A d d' effects) (k : Key) :
    effects.filterMap (Effect.timestampFor k) = [] ∧ Advances d d' k := by
  refine ⟨?_, .inl ?_⟩
  · rw [List.filterMap_eq_nil_iff]
    intro e he
    cases e with
    | installed key ts => exact absurd he (h.installs key ts)
    | _ => rfl
  · rw [stored, stored, h.peers]

/-- A call that takes a timestamp stores it, for its own key. -/
theorem advances_update {d' : Datapath W} {key : Key} {peer : Peer} {ts : Tai64n}
    (hpeers : d'.peers = Function.update d.peers key (some peer))
    (hts : peer.lastHandshakeTimestamp = some ts)
    (hnew : ∀ prev ∈ d.stored key, ts.isNewerThan prev = true) (k : Key) :
    d'.stored key = some ts ∧ Advances d d' k := by
  have hself : d'.stored key = some ts := by
    rw [stored, hpeers, Function.update_self, Option.bind_some, hts]
  refine ⟨hself, ?_⟩
  by_cases hk : k = key
  · subst hk
    exact .inr ⟨ts, hself, hnew⟩
  · refine .inl ?_
    rw [stored, stored, hpeers, Function.update_of_ne hk]

/-- **What one call does to the timestamps of a key.**  It installs nothing for
it and at most advances the stored one, or it installs a session with a newer
one and stores that. -/
theorem timestamps_step (P : Primitives) (nodeKey : NodePrivate) (d : Datapath W) (now : ℕ)
    (i : Input) (k : Key) :
    ((step P nodeKey d now i).2.1.filterMap (Effect.timestampFor k) = [] ∧
      Advances d (step P nodeKey d now i).1 k) ∨
    ∃ ts, (step P nodeKey d now i).2.1.filterMap (Effect.timestampFor k) = [ts] ∧
      (step P nodeKey d now i).1.stored k = some ts ∧
      ∀ prev ∈ d.stored k, ts.isNewerThan prev = true := by
  cases i with
  | tick => exact .inl ((drainStack_traffic P d now).timestamps k)
  | packet src data known ephemeral =>
    simp only [step]
    rcases handlePacket_cases P nodeKey d src data known ephemeral now with ⟨-, he⟩ | ⟨-, ht⟩
    · rw [he]
      rcases handleInitiation_cases P nodeKey d src data known ephemeral now with
        ⟨e, he, -⟩ | ⟨responder, learned, client, e, -, hnew, -, he⟩ |
        ⟨learned, keys, client, hans, -, he⟩
      · rw [he]
        exact .inl ⟨rfl, .inl rfl⟩
      · rw [he]
        exact .inl ⟨rfl, (advances_update rfl rfl hnew k).2⟩
      · rw [he]
        obtain ⟨hself, hadv⟩ := advances_update
          (show (d.installed learned keys client now).peers = _ from rfl) rfl hans.newer k
        -- put on record for its own key only
        by_cases hk : learned.peerStatic.bytes = k
        · subst hk
          refine .inr ⟨learned.timestamp, ?_, hself, hans.newer⟩
          simp only [List.filterMap_cons, List.filterMap_nil, Effect.timestampFor, if_true]
        · refine .inl ⟨?_, hadv⟩
          simp only [List.filterMap_cons, List.filterMap_nil, Effect.timestampFor, if_neg hk]
    · exact .inl (ht.timestamps k)

/-- The stored timestamp never gets older. -/
theorem Advances.older {d d' : Datapath W} {k : Key} (h : Advances d d' k) {ts : Tai64n}
    (hnew : ∀ prev ∈ d'.stored k, ts.isNewerThan prev = true) :
    ∀ prev ∈ d.stored k, ts.isNewerThan prev = true := by
  intro prev hprev
  rcases h with h | ⟨mid, hmid, hadv⟩
  · exact hnew prev (h ▸ hprev)
  · exact isNewerThan_trans (hnew mid hmid) (hadv prev hprev)

theorem Advances.bound {d d' : Datapath W} {k : Key} (h : Advances d d' k) {ts last : Tai64n}
    (hlast : d.stored k = some last) (hold : ts.isNewerThan last = false) :
    ∃ last', d'.stored k = some last' ∧ ts.isNewerThan last' = false := by
  rcases h with h | ⟨mid, hmid, hadv⟩
  · exact ⟨last, h.trans hlast, hold⟩
  · refine ⟨mid, hmid, ?_⟩
    by_contra hne
    rw [Bool.not_eq_false] at hne
    rw [isNewerThan_trans hne (hadv last hlast)] at hold
    cases hold

/-- Along a run the timestamps that install sessions for a key increase, from the
stored one on. -/
theorem installTimes_increase (P : Primitives) (nodeKey : NodePrivate) (d : Datapath W)
    (inputs : List (ℕ × Input)) (k : Key) :
    (installTimes P nodeKey d inputs k).Pairwise (fun a b => b.isNewerThan a = true) ∧
      ∀ ts ∈ installTimes P nodeKey d inputs k, ∀ prev ∈ d.stored k,
        ts.isNewerThan prev = true := by
  induction inputs generalizing d with
  | nil => exact ⟨.nil, fun ts hts => absurd hts List.not_mem_nil⟩
  | cons x inputs ih =>
    -- whatever is installed later is newer than what is stored after this step
    obtain ⟨hpair, hfirst⟩ := ih (step P nodeKey d x.1 x.2).1
    rw [installTimes_cons]
    rcases timestamps_step P nodeKey d x.1 x.2 k with ⟨hnone, hadv⟩ | ⟨ts, hone, hstored, hnew⟩
    · rw [hnone, List.nil_append]
      exact ⟨hpair, fun ts hts => hadv.older (hfirst ts hts)⟩
    · rw [hone, List.singleton_append]
      refine ⟨List.pairwise_cons.mpr ⟨fun later hl => hfirst later hl ts hstored, hpair⟩, ?_⟩
      intro later hl prev hprev
      rcases List.mem_cons.mp hl with rfl | hl
      · exact hnew prev hprev
      · exact isNewerThan_trans (hfirst later hl ts hstored) (hnew prev hprev)

/-- A timestamp that is not newer than the stored one stays so. -/
theorem stored_run {P : Primitives} {nodeKey : NodePrivate} {d : Datapath W} {k : Key}
    {ts last : Tai64n} (hlast : d.stored k = some last) (hold : ts.isNewerThan last = false)
    (inputs : List (ℕ × Input)) :
    ∃ last', (Timed.run (step P nodeKey) d inputs).stored k = some last' ∧
      ts.isNewerThan last' = false := by
  induction inputs generalizing d last with
  | nil => exact ⟨last, hlast, hold⟩
  | cons x inputs ih =>
    rcases timestamps_step P nodeKey d x.1 x.2 k with ⟨-, hadv⟩ | ⟨ts', -, hstored, hnew⟩
    · obtain ⟨last', hlast', hold'⟩ := hadv.bound hlast hold
      exact ih hlast' hold'
    · obtain ⟨last', hlast', hold'⟩ := Advances.bound (.inr ⟨ts', hstored, hnew⟩) hlast hold
      exact ih hlast' hold'

/-- An initiation with a timestamp that is not newer is an error and changes
nothing. -/
theorem stale_refused {responder : Responder} {learned : Initiation} {last : Tai64n}
    (hc : Responder.consumeInitiation P nodeKey data = .ok (responder, learned))
    (hlast : d.stored learned.peerStatic.bytes = some last)
    (hold : learned.timestamp.isNewerThan last = false) (src : Key) (known : List NodePublic)
    (ephemeral : NodePrivate) (now : ℕ) :
    ∃ e, d.handlePacket P nodeKey src data known ephemeral now = (d, [], .error e) := by
  rcases handlePacket_cases P nodeKey d src data known ephemeral now with ⟨-, he⟩ | ⟨hhead, -⟩
  · rw [he]
    rcases handleInitiation_cases P nodeKey d src data known ephemeral now with
      ⟨e, he, -⟩ | ⟨responder', learned', client, e, hc', hnew, -, -⟩ |
      ⟨learned', keys, client, hans, -, -⟩
    · exact ⟨e, he⟩
    · rw [hc] at hc'
      obtain ⟨-, rfl⟩ := Prod.mk.inj (Except.ok.inj hc')
      rw [hnew last hlast] at hold
      cases hold
    · obtain ⟨_, _, hc', -⟩ := hans.consumed
      rw [hc] at hc'
      obtain ⟨-, rfl⟩ := Prod.mk.inj (Except.ok.inj hc')
      rw [hans.newer last hlast] at hold
      cases hold
  · exact absurd (Responder.head_of_consumeInitiation hc) hhead

/-- An initiation that installed a session is on record with its timestamp. -/
theorem of_installed {k : Key} {ts : Tai64n}
    (h : .installed k ts ∈ (d.handlePacket P nodeKey src data known ephemeral now).2.1) :
    ∃ responder learned, Responder.consumeInitiation P nodeKey data = .ok (responder, learned) ∧
      learned.peerStatic.bytes = k ∧ learned.timestamp = ts ∧
      (d.handlePacket P nodeKey src data known ephemeral now).1.stored k = some ts := by
  obtain ⟨learned, keys, client, hans, rfl, rfl, he⟩ := answered_of_mem h
  obtain ⟨responder, _, hc, -⟩ := hans.consumed
  refine ⟨responder, learned, hc, rfl, rfl, ?_⟩
  rw [he, stored_installed]

/-- **Initiations do not replay.**  In every run from every state, the timestamps
that install sessions for a key strictly increase as byte strings; an initiation
whose timestamp is not greater than the stored one of its key is an error and
changes nothing; and so is, ever after, any copy of one that was answered. -/
theorem initiations_increase (P : Primitives) (nodeKey : NodePrivate) (d : Datapath W)
    (inputs : List (ℕ × Input)) :
    (∀ k, (installTimes P nodeKey d inputs k).Pairwise
      fun a b => a.bytes.toList < b.bytes.toList) ∧
    (∀ src data known ephemeral now responder learned last,
      Responder.consumeInitiation P nodeKey data = .ok (responder, learned) →
      (Timed.run (step P nodeKey) d inputs).stored learned.peerStatic.bytes = some last →
      ¬ last.bytes.toList < learned.timestamp.bytes.toList →
      ∃ e, step P nodeKey (Timed.run (step P nodeKey) d inputs) now
        (.packet src data known ephemeral) = (Timed.run (step P nodeKey) d inputs, [], .error e)) ∧
    ∀ before t src data known ephemeral after k ts,
      inputs = before ++ (t, .packet src data known ephemeral) :: after →
      .installed k ts ∈ (step P nodeKey (Timed.run (step P nodeKey) d before) t
        (.packet src data known ephemeral)).2.1 →
      ∀ now src' known' ephemeral', ∃ e,
        step P nodeKey (Timed.run (step P nodeKey) d inputs) now
          (.packet src' data known' ephemeral') =
            (Timed.run (step P nodeKey) d inputs, [], .error e) := by
  refine ⟨?_, ?_, ?_⟩
  · intro k
    refine (installTimes_increase P nodeKey d inputs k).1.imp ?_
    intro a b h
    exact isNewerThan_iff.mp h
  · intro src data known ephemeral now responder learned last hc hlast hold
    rw [← isNewerThan_iff, Bool.not_eq_true] at hold
    exact stale_refused hc hlast hold src known ephemeral now
  · rintro before t src data known ephemeral after k ts rfl hmem now src' known' ephemeral'
    obtain ⟨responder, learned, hc, rfl, rfl, hstored⟩ := of_installed hmem
    -- a timestamp is not newer than itself, and what is stored only advances
    have hself : learned.timestamp.isNewerThan learned.timestamp = false := by
      by_contra hne
      rw [Bool.not_eq_false] at hne
      rw [isNewerThan_asymm hne] at hne
      cases hne
    obtain ⟨last, hlast, hold⟩ := stored_run hstored hself after
    rw [Timed.run_append]
    exact stale_refused hc hlast hold src' known' ephemeral' now

end Lando.Host.Node
