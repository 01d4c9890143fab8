/-
Lando/FwRelay.lean

The firmware's datapath: `wg::serve`, which owns the UDP socket, and
`derp::pump`, which owns the relay connection, over one `Node` and the channel
`DERP_OUT` between them.

`serve` encrypts what leaves the tunnel.  A packet whose return path is
`Derp(k)` goes into the channel, and there it is a buffer and a length: the
key `k` does not travel with it.  `pump` takes it out and sends it to
`peer_key`, the sender of the last packet that the relay handed over, whoever
that was.  Whether the two keys are the same is a property of the run.

In the model a queued packet carries `dest`, the key with which it was
encrypted.  No step reads it; it is there for the statements.

The two loops are polled from one future, so that they change places only at
an await.  The steps of `Datapath.step` are what runs between two of them:
`pump` handles a frame in the turn in which it found the channel empty, or had
no peer to send to.  What it finds to parse is an argument of the step (which
frames these are, `Lando.FwDerp` says).

The invariant `Aligned` says that all that waits in the channel is for the
peer of `pump`.  A step keeps it exactly when `Keeps` holds before it.
-/
import Lando.FwNode
import Lando.FwDerp

namespace Lando.Fw

open Bytes Derp

/-! ### The channel -/

/-- `Channel<_, T, N>`: at most `capacity` elements. -/
structure Channel (α : Type) (capacity : ℕ) where
  items : List α
  length_le : items.length ≤ capacity

namespace Channel

variable {α : Type} {capacity : ℕ}

/-- An empty channel. -/
def new : Channel α capacity := ⟨[], Nat.zero_le capacity⟩

/-- A full channel refuses the element. -/
def trySend (c : Channel α capacity) (a : α) : Channel α capacity :=
  if h : c.items.length < capacity then ⟨c.items ++ [a], by rw [List.length_append]; exact h⟩ else c

/-- The oldest item, if there is one. -/
def tryReceive : Channel α capacity → Option (α × Channel α capacity)
  | ⟨[], _⟩ => none
  | ⟨a :: items, h⟩ => some (a, ⟨items, (Nat.le_succ _).trans h⟩)

theorem items_trySend {c : Channel α capacity} (h : c.items.length < capacity) (a : α) :
    (c.trySend a).items = c.items ++ [a] := by
  rw [trySend, dif_pos h]

theorem trySend_full {c : Channel α capacity} (h : ¬ c.items.length < capacity) (a : α) :
    c.trySend a = c := by
  rw [trySend, dif_neg h]

/-- Receiving takes the oldest element. -/
theorem tryReceive_cases (c : Channel α capacity) :
    (c.items = [] ∧ c.tryReceive = none) ∨
    ∃ a rest, c.items = a :: rest.items ∧ c.tryReceive = some (a, rest) := by
  rcases c with ⟨_ | ⟨a, items⟩, h⟩
  · exact .inl ⟨rfl, rfl⟩
  · exact .inr ⟨a, _, rfl, rfl⟩

end Channel

/-! ### The datapath -/

/-- One packet on its way to the relay. -/
structure Relayed where
  bytes : List UInt8
  length_le : bytes.length ≤ bufferLen

/-- The packet, cut at the buffer. -/
def Relayed.new (packet : List UInt8) : Relayed where
  bytes := packet.take bufferLen
  length_le := List.length_take_le bufferLen packet

/-- A packet in the channel, and the key with which it was encrypted. -/
structure Queued where
  relayed : Relayed
  dest : Key

/-- Where `pump` waits: at the top of its loop, or in the race. -/
inductive Phase
  | top
  | wait
  deriving DecidableEq

/-- The node, the queue to the relay and the task that empties it. -/
structure Datapath where
  node : Node
  derpOut : Channel Queued 8
  /-- `peer_key` of the running `pump`. -/
  peerKey : Option Key
  phase : Phase

/-- What the datapath puts out. -/
inductive Output
  /-- On the relay connection: a packet for `dst`.  `dest` is the key of a
  packet from the channel, and `none` for a reply. -/
  | sendPacket (dst : Key) (packet : List UInt8) (dest : Option Key)
  /-- On the relay connection: the answer to a ping of the relay. -/
  | pong (payload : List UInt8)
  | udp (ep : Endpoint) (packet : List UInt8)
  /-- Into the tunnel. -/
  | deliver (packet : List UInt8)

/-- What the tasks do, one step at a time. -/
inductive Event
  /-- `serve`: a packet on the UDP socket. -/
  | udp (packet : List UInt8) (ep : Endpoint)
  /-- `serve`: a packet from the tunnel. -/
  | outbound (packet : List UInt8)
  /-- `pump`: one packet of the drain at the top of the loop. -/
  | drain
  /-- `pump`: the drain is over, and this is the next frame, if there is one. -/
  | parsed (frame : Option Raw)
  /-- `pump`: the race ends with a read. -/
  | read
  /-- `pump`: the race ends with a packet from the channel. -/
  | receive
  /-- The connection is lost, and a new `pump` starts. -/
  | lost

namespace Datapath

/-- The connection is up and nothing is queued. -/
def start (node : Node) : Datapath := ⟨node, .new, none, .top⟩

/-- A new connection: `peer_key` starts over, the queue stays. -/
def reconnect (s : Datapath) : Datapath := { s with peerKey := none, phase := .top }

/-- Sends a packet to a peer through the relay; the frame has room for a key
and `bufferLen` bytes. -/
def sendPacket (s : Datapath) (dst : Key) (packet : List UInt8) (dest : Option Key) :
    Datapath × List Output :=
  if bufferLen + keyLen < keyLen + packet.length then (s.reconnect, [])
  else (s, [.sendPacket dst packet dest])

/-- Acts on one received frame. -/
def handleFrame (P : Primitives) (s : Datapath) (kind : FrameType) (payload : List UInt8) :
    Datapath × List Output :=
  match kind with
  | .recvPacket =>
      if keyLen < payload.length then
        -- the key is both the sender's identity and the address of a reply
        let src : Key := Bytes.read 32 payload 0
        let (node, action) := s.node.handle P (payload.drop keyLen) (.derp src) bufferLen
        let s := { s with node := node, peerKey := some src }
        match action with
        | some (.reply bytes) => s.sendPacket src bytes none
        | some (.deliver bytes) => (s, [.deliver bytes])
        | none => (s, [])
      else (s, [])
  | .ping => if 8 ≤ payload.length then (s, [.pong (payload.take 8)]) else (s, [])
  | _ => (s, [])

/-- A packet of the channel goes to the peer, if there is one. -/
def forward (s : Datapath) (q : Queued) : Datapath × List Output :=
  match s.peerKey with
  | none => (s, [])
  | some peer => s.sendPacket peer q.relayed.bytes (some q.dest)

/-- The drain goes on: there is a peer and something to send. -/
def draining (s : Datapath) : Bool := s.peerKey.isSome && !s.derpOut.items.isEmpty

/-- One step.  A step of `pump` that cannot be next does nothing. -/
def step (P : Primitives) (s : Datapath) : Event → Datapath × List Output
  | .udp packet ep =>
      match s.node.handle P packet (.udp ep) bufferLen with
      | (node, some (.reply bytes)) => ({ s with node := node }, [.udp ep bytes])
      | (node, some (.deliver bytes)) => ({ s with node := node }, [.deliver bytes])
      | (node, none) => ({ s with node := node }, [])
  | .outbound packet =>
      match s.node.encrypt P packet bufferLen with
      | (node, none) => ({ s with node := node }, [])
      | (node, some (cipher, .udp ep)) => ({ s with node := node }, [.udp ep cipher])
      | (node, some (cipher, .derp k)) =>
          ({ s with node := node, derpOut := s.derpOut.trySend ⟨Relayed.new cipher, k⟩ }, [])
  | .drain =>
      if s.phase = .top ∧ s.draining then
        match s.derpOut.tryReceive with
        | none => (s, [])
        | some (q, derpOut) => { s with derpOut := derpOut }.forward q
      else (s, [])
  | .parsed frame =>
      if s.phase = .top ∧ s.draining = false then
        match frame with
        | some (kind, payload) => s.handleFrame P kind payload
        | none => ({ s with phase := .wait }, [])
      else (s, [])
  | .read => if s.phase = .wait then ({ s with phase := .top }, []) else (s, [])
  | .receive =>
      if s.phase = .wait then
        match s.derpOut.tryReceive with
        | none => (s, [])
        | some (q, derpOut) => { s with derpOut := derpOut, phase := .top }.forward q
      else (s, [])
  | .lost => (s.reconnect, [])

/-- A run, and all that it puts out. -/
def run (P : Primitives) (s : Datapath) : List Event → Datapath × List Output
  | [] => (s, [])
  | e :: events =>
      let (s, out) := s.step P e
      let (s, outs) := s.run P events
      (s, out ++ outs)

end Datapath

/-! ### Where relayed packets go -/

/-- Whatever came from the channel goes to the key with which it was
encrypted. -/
def Straight (outs : List Output) : Prop :=
  ∀ dst packet dest, Output.sendPacket dst packet (some dest) ∈ outs → dst = dest

theorem straight_append {outs outs' : List Output} :
    Straight (outs ++ outs') ↔ Straight outs ∧ Straight outs' := by
  constructor
  · exact fun h => ⟨fun dst packet dest hm => h dst packet dest (List.mem_append_left _ hm),
      fun dst packet dest hm => h dst packet dest (List.mem_append_right _ hm)⟩
  · rintro ⟨h, h'⟩ dst packet dest hm
    rcases List.mem_append.mp hm with hm | hm
    · exact h dst packet dest hm
    · exact h' dst packet dest hm

theorem straight_nil : Straight [] := by
  intro dst packet dest hm
  cases hm

/-- What does not come from the channel. -/
theorem straight_singleton {o : Output}
    (h : ∀ dst packet dest, o ≠ .sendPacket dst packet (some dest)) : Straight [o] := by
  intro dst packet dest hm
  exact absurd (List.mem_singleton.mp hm).symm (h dst packet dest)

namespace Datapath

/-- All that waits in the channel is for the peer of `pump`. -/
def Aligned (s : Datapath) : Prop :=
  ∀ peer, s.peerKey = some peer → ∀ q ∈ s.derpOut.items, q.dest = peer

/-- What has to hold before a step:

* a packet from the tunnel that will be queued for `k` finds `pump` with no
  peer, or with `k`;
* a frame that makes its sender the peer finds nothing in the channel that is
  for somebody else. -/
def Keeps (s : Datapath) : Event → Prop
  | .outbound packet => ∀ slot k peer, s.node.peer = some slot → slot.source = .derp k →
      slot.session.Fits packet bufferLen → s.derpOut.items.length < 8 →
      s.peerKey = some peer → peer = k
  | .parsed (some (kind, payload)) => s.phase = .top → s.draining = false →
      kind = .recvPacket → keyLen < payload.length →
      ∀ q ∈ s.derpOut.items, q.dest = Bytes.read 32 payload 0
  | _ => True

variable {P : Primitives} {s : Datapath}

theorem sendPacket_of_le {packet : List UInt8} (h : packet.length ≤ bufferLen) (s : Datapath)
    (dst : Key) (dest : Option Key) :
    s.sendPacket dst packet dest = (s, [.sendPacket dst packet dest]) := by
  rw [sendPacket, if_neg (by omega)]

theorem forward_none (h : s.peerKey = none) (q : Queued) : s.forward q = (s, []) := by
  rw [forward, h]

theorem forward_some {peer : Key} (h : s.peerKey = some peer) (q : Queued) :
    s.forward q = (s, [.sendPacket peer q.relayed.bytes (some q.dest)]) := by
  rw [forward, h]
  exact sendPacket_of_le q.relayed.length_le s peer (some q.dest)

/-- The drain is over, and a frame is handled. -/
theorem step_frame (htop : s.phase = .top) (hdrained : s.draining = false) (kind : FrameType)
    (payload : List UInt8) :
    s.step P (.parsed (some (kind, payload))) = s.handleFrame P kind payload :=
  if_pos ⟨htop, hdrained⟩

/-- The drain sends the oldest packet to the peer. -/
theorem step_drain {peer : Key} {q : Queued} {rest : Channel Queued 8} (htop : s.phase = .top)
    (hpeer : s.peerKey = some peer) (hreceive : s.derpOut.tryReceive = some (q, rest)) :
    s.step P .drain =
      ({ s with derpOut := rest }, [.sendPacket peer q.relayed.bytes (some q.dest)]) := by
  have hdraining : s.draining = true := by
    rcases s.derpOut.tryReceive_cases with ⟨-, he⟩ | ⟨r, rest', hitems, -⟩
    · rw [he] at hreceive
      cases hreceive
    · rw [draining, hpeer, hitems]
      rfl
  simp only [step, if_pos (And.intro htop hdraining), hreceive]
  exact forward_some (s := { s with derpOut := rest }) hpeer q

/-- Forwarding what was taken out of the channel. -/
theorem Aligned.forward {q : Queued} {rest : Channel Queued 8} (h : s.Aligned)
    (hitems : s.derpOut.items = q :: rest.items) (s' : Datapath) (hpeer : s'.peerKey = s.peerKey)
    (hout : s'.derpOut = rest) : (s'.forward q).1.Aligned ∧ Straight (s'.forward q).2 := by
  have hall : ∀ peer, s.peerKey = some peer → ∀ r ∈ q :: rest.items, r.dest = peer := by
    intro peer hp r hr
    exact h peer hp r (hitems ▸ hr)
  rcases hp : s'.peerKey with - | peer
  · rw [forward_none hp]
    refine ⟨fun peer hs => ?_, straight_nil⟩
    rw [hp] at hs
    cases hs
  · rw [forward_some hp]
    have hpeer' : s.peerKey = some peer := hpeer.symm.trans hp
    refine ⟨fun peer' hs r hr => ?_, fun dst packet dest hm => ?_⟩
    · obtain rfl := Option.some.inj (hp.symm.trans hs)
      rw [hout] at hr
      exact hall peer hpeer' r (List.mem_cons_of_mem q hr)
    · obtain ⟨rfl, -, hd⟩ := Output.sendPacket.inj (List.mem_singleton.mp hm)
      rw [Option.some.inj hd]
      exact (hall dst hpeer' q List.mem_cons_self).symm

/-- A frame leaves the channel as it is; a relayed packet makes its sender the
peer. -/
theorem handleFrame_cases (hP : P.Lawful) (hB : P.BoxInPlace) (s : Datapath) (kind : FrameType)
    (payload : List UInt8) :
    Straight (s.handleFrame P kind payload).2 ∧
    (s.handleFrame P kind payload).1.derpOut = s.derpOut ∧
    if kind = .recvPacket ∧ keyLen < payload.length then
      (s.handleFrame P kind payload).1.peerKey = some (Bytes.read 32 payload 0)
    else (s.handleFrame P kind payload).1.peerKey = s.peerKey := by
  by_cases hrecv : kind = .recvPacket ∧ keyLen < payload.length
  · obtain ⟨rfl, hlen⟩ := hrecv
    rw [if_pos ⟨rfl, hlen⟩]
    simp only [handleFrame, if_pos hlen]
    generalize Bytes.read 32 payload 0 = src
    rcases hh : s.node.handle P (payload.drop keyLen) (.derp src) bufferLen
      with ⟨node, - | bytes | bytes⟩
    · exact ⟨straight_nil, rfl, rfl⟩
    · simp only
      rw [sendPacket_of_le (Node.length_reply hP hB hh)]
      exact ⟨straight_singleton fun _ _ _ => nofun, rfl, rfl⟩
    · exact ⟨straight_singleton fun _ _ _ => nofun, rfl, rfl⟩
  · rw [if_neg hrecv]
    cases kind with
    | recvPacket =>
      have hlen : ¬ keyLen < payload.length := fun h => hrecv ⟨rfl, h⟩
      rw [show s.handleFrame P .recvPacket payload = (s, []) from if_neg hlen]
      exact ⟨straight_nil, rfl, rfl⟩
    | ping =>
      simp only [handleFrame]
      split_ifs
      · exact ⟨straight_singleton fun _ _ _ => nofun, rfl, rfl⟩
      · exact ⟨straight_nil, rfl, rfl⟩
    | _ => exact ⟨straight_nil, rfl, rfl⟩

theorem aligned_congr {s' : Datapath} (hpeer : s'.peerKey = s.peerKey)
    (hout : s'.derpOut = s.derpOut) : s'.Aligned ↔ s.Aligned := by
  rw [Aligned, Aligned, hpeer, hout]

/-- The channel after a packet from the tunnel: one packet more if the return
path is relayed, the session can encrypt it and there is room. -/
theorem step_outbound (hP : P.Lawful) (s : Datapath) (packet : List UInt8) :
    Straight (s.step P (.outbound packet)).2 ∧
    (s.step P (.outbound packet)).1.peerKey = s.peerKey ∧
    ((∃ slot k q, s.node.peer = some slot ∧ slot.source = .derp k ∧
        slot.session.Fits packet bufferLen ∧ s.derpOut.items.length < 8 ∧ q.dest = k ∧
        (s.step P (.outbound packet)).1.derpOut.items = s.derpOut.items ++ [q]) ∨
      ((∀ slot k, s.node.peer = some slot → slot.source = .derp k →
          slot.session.Fits packet bufferLen → ¬ s.derpOut.items.length < 8) ∧
        (s.step P (.outbound packet)).1.derpOut = s.derpOut)) := by
  rcases Node.encrypt_peer P s.node packet bufferLen with
    ⟨hpeer, he⟩ | ⟨slot, session, out, hpeer, -, he, hout⟩
  · have hstep : s.step P (.outbound packet) = (s, []) := by simp only [step, he]
    rw [hstep]
    refine ⟨straight_nil, rfl, .inr ⟨fun slot k hs => ?_, rfl⟩⟩
    rw [hpeer] at hs
    cases hs
  -- the session of the one peer is the one that encrypts
  have honly : ∀ slot', s.node.peer = some slot' → slot' = slot := by
    intro slot' hs
    exact Option.some.inj (hs.symm.trans hpeer)
  by_cases hfits : slot.session.Fits packet bufferLen
  · obtain ⟨node, cipher, he⟩ := Node.encrypt_of_fits hP hpeer hfits
    rcases hsource : slot.source with ep | k
    · -- a direct path goes out at once, a relayed one into the channel
      have hstep : s.step P (.outbound packet) = ({ s with node := node }, [.udp ep cipher]) := by
        simp only [step, he, hsource]
      rw [hstep]
      refine ⟨straight_singleton fun _ _ _ => nofun, rfl, .inr ⟨fun slot' k hs hk => ?_, rfl⟩⟩
      rw [honly slot' hs, hsource] at hk
      cases hk
    · have hstep : s.step P (.outbound packet) =
          ({ s with node := node, derpOut := s.derpOut.trySend ⟨Relayed.new cipher, k⟩ }, []) := by
        simp only [step, he, hsource]
      rw [hstep]
      refine ⟨straight_nil, rfl, ?_⟩
      by_cases hroom : s.derpOut.items.length < 8
      · exact .inl ⟨slot, k, ⟨Relayed.new cipher, k⟩, hpeer, hsource, hfits, hroom, rfl,
          Channel.items_trySend hroom _⟩
      · exact .inr ⟨fun _ _ _ _ _ => hroom, Channel.trySend_full hroom _⟩
  · -- the session refuses, and nothing is encrypted
    rcases out with - | ⟨cipher, dst⟩
    · have hstep : (s.step P (.outbound packet)).2 = [] ∧
          (s.step P (.outbound packet)).1.peerKey = s.peerKey ∧
          (s.step P (.outbound packet)).1.derpOut = s.derpOut := by
        rw [step, he]
        exact ⟨rfl, rfl, rfl⟩
      refine ⟨hstep.1 ▸ straight_nil, hstep.2.1, .inr ⟨fun slot' k hs _ hf => ?_, hstep.2.2⟩⟩
      rw [honly slot' hs] at hf
      exact absurd hf hfits
    · exact absurd (hout cipher dst rfl).2 hfits

theorem Aligned.outbound (hP : P.Lawful) (h : s.Aligned) (packet : List UInt8) :
    (s.step P (.outbound packet)).1.Aligned ↔ s.Keeps (.outbound packet) := by
  obtain ⟨-, hpeer, ⟨slot, k, q, hslot, hsource, hfits, hroom, hq, hitems⟩ | ⟨hnone, hout⟩⟩ :=
    step_outbound hP s packet
  · constructor
    · intro halign slot' k' peer hs hk _ _ hp
      obtain rfl := Option.some.inj (hslot.symm.trans hs)
      obtain rfl := Source.derp.inj (hsource.symm.trans hk)
      rw [← hq]
      refine (halign peer (hpeer.trans hp) q ?_).symm
      rw [hitems]
      exact List.mem_append_right _ (List.mem_singleton_self q)
    · intro hkeeps peer hp r hr
      rw [hpeer] at hp
      rw [hitems] at hr
      rcases List.mem_append.mp hr with hr | hr
      · exact h peer hp r hr
      · rw [List.mem_singleton.mp hr, hq]
        exact (hkeeps slot k peer hslot hsource hfits hroom hp).symm
  · refine iff_of_true ((aligned_congr hpeer hout).mpr h) ?_
    intro slot k peer hs hk hf hroom
    exact absurd hroom (hnone slot k hs hk hf)

theorem Aligned.parsed (hP : P.Lawful) (hB : P.BoxInPlace) (h : s.Aligned) (frame : Option Raw) :
    Straight (s.step P (.parsed frame)).2 ∧
      ((s.step P (.parsed frame)).1.Aligned ↔ s.Keeps (.parsed frame)) := by
  by_cases htop : s.phase = .top ∧ s.draining = false
  swap
  · rw [show s.step P (.parsed frame) = (s, []) from if_neg htop]
    refine ⟨straight_nil, iff_of_true h ?_⟩
    rcases frame with - | ⟨kind, payload⟩
    · trivial
    · exact fun hphase hdrained => absurd ⟨hphase, hdrained⟩ htop
  rcases frame with - | ⟨kind, payload⟩
  · rw [show s.step P (.parsed none) = ({ s with phase := .wait }, []) from if_pos htop]
    exact ⟨straight_nil, iff_of_true ((aligned_congr rfl rfl).mpr h) trivial⟩
  rw [step_frame htop.1 htop.2]
  obtain ⟨hstraight, hout, hpeer⟩ := handleFrame_cases hP hB s kind payload
  split_ifs at hpeer with hrecv
  · -- the sender is the peer now
    refine ⟨hstraight, fun halign _ _ _ _ q hq => ?_, fun hkeeps peer hp q hq => ?_⟩
    · exact halign _ hpeer q (hout.symm ▸ hq)
    · rw [← Option.some.inj (hpeer.symm.trans hp)]
      exact hkeeps htop.1 htop.2 hrecv.1 hrecv.2 q (hout ▸ hq)
  · refine ⟨hstraight, iff_of_true ((aligned_congr hpeer hout).mpr h) ?_⟩
    exact fun _ _ hkind hlen => absurd ⟨hkind, hlen⟩ hrecv

/-- **One step.**  From an aligned state nothing is misdirected, and the next
state is aligned exactly when the step keeps it so. -/
theorem Aligned.step (hP : P.Lawful) (hB : P.BoxInPlace) (h : s.Aligned) (e : Event) :
    Straight (s.step P e).2 ∧ ((s.step P e).1.Aligned ↔ s.Keeps e) := by
  have hsame : ∀ s' : Datapath, s'.peerKey = s.peerKey → s'.derpOut = s.derpOut →
      (s'.Aligned ↔ True) := fun s' hp ho => iff_of_true ((aligned_congr hp ho).mpr h) trivial
  have hself : s.Aligned ↔ True := iff_of_true h trivial
  -- only what the relay sends or forgets can leave the channel out of line
  cases e with
  | udp packet ep =>
    simp only [Datapath.step]
    rcases s.node.handle P packet (.udp ep) bufferLen with ⟨node, - | bytes | bytes⟩
    · exact ⟨straight_nil, hsame _ rfl rfl⟩
    · exact ⟨straight_singleton fun _ _ _ => nofun, hsame _ rfl rfl⟩
    · exact ⟨straight_singleton fun _ _ _ => nofun, hsame _ rfl rfl⟩
  | outbound packet => exact ⟨(step_outbound hP s packet).1, h.outbound hP packet⟩
  | drain =>
    simp only [Datapath.step]
    split_ifs
    · rcases s.derpOut.tryReceive_cases with ⟨-, he⟩ | ⟨q, rest, hitems, he⟩
      · rw [he]
        exact ⟨straight_nil, hself⟩
      · rw [he]
        obtain ⟨halign, hstraight⟩ := h.forward hitems { s with derpOut := rest } rfl rfl
        exact ⟨hstraight, iff_of_true halign trivial⟩
    · exact ⟨straight_nil, hself⟩
  | parsed frame => exact h.parsed hP hB frame
  | read =>
    simp only [Datapath.step]
    split_ifs
    · exact ⟨straight_nil, hsame _ rfl rfl⟩
    · exact ⟨straight_nil, hself⟩
  | receive =>
    simp only [Datapath.step]
    split_ifs
    · rcases s.derpOut.tryReceive_cases with ⟨-, he⟩ | ⟨q, rest, hitems, he⟩
      · rw [he]
        exact ⟨straight_nil, hself⟩
      · rw [he]
        obtain ⟨halign, hstraight⟩ :=
          h.forward hitems { s with derpOut := rest, phase := .top } rfl rfl
        exact ⟨hstraight, iff_of_true halign trivial⟩
    · exact ⟨straight_nil, hself⟩
  | lost =>
    refine ⟨straight_nil, iff_of_true ?_ trivial⟩
    intro peer hp
    cases hp

/-- Every step of the run keeps the channel aligned. -/
def Follows (P : Primitives) (s : Datapath) : List Event → Prop
  | [] => True
  | e :: events => s.Keeps e ∧ (s.step P e).1.Follows P events

theorem run_append (s : Datapath) (before after : List Event) :
    s.run P (before ++ after) =
      (((s.run P before).1.run P after).1, (s.run P before).2 ++ ((s.run P before).1.run P after).2) := by
  induction before generalizing s with
  | nil => rfl
  | cons e before ih =>
    simp only [List.cons_append, run]
    rw [ih, List.append_assoc]

/-- **A run.**  While every step keeps the channel aligned, nothing is
misdirected. -/
theorem Aligned.run (hP : P.Lawful) (hB : P.BoxInPlace) (h : s.Aligned) {events : List Event}
    (hfollows : s.Follows P events) :
    Straight (s.run P events).2 ∧ (s.run P events).1.Aligned := by
  induction events generalizing s with
  | nil => exact ⟨straight_nil, h⟩
  | cons e events ih =>
    obtain ⟨hkeeps, hrest⟩ := hfollows
    obtain ⟨hout, halign⟩ := h.step hP hB e
    obtain ⟨houts, hend⟩ := ih (halign.mpr hkeeps) hrest
    exact ⟨straight_append.mpr ⟨hout, houts⟩, hend⟩

/-- At the top of the loop the drain sends all that waits to the peer. -/
theorem drained {peer : Key} {q : Queued} (htop : s.phase = .top) (hpeer : s.peerKey = some peer)
    (hq : q ∈ s.derpOut.items) :
    ∃ tail, Output.sendPacket peer q.relayed.bytes (some q.dest) ∈ (s.run P tail).2 := by
  -- by induction on what waits; each turn of the drain takes the oldest
  generalize hitems : s.derpOut.items = items at hq
  induction items generalizing s with
  | nil => cases hq
  | cons r items ih =>
    rcases s.derpOut.tryReceive_cases with ⟨hnil, -⟩ | ⟨r', rest, hcons, he⟩
    · rw [hnil] at hitems
      cases hitems
    rw [hcons] at hitems
    obtain ⟨rfl, hrest⟩ := List.cons.inj hitems
    have hstep := step_drain (P := P) htop hpeer he
    rcases List.mem_cons.mp hq with rfl | hq
    · refine ⟨[.drain], ?_⟩
      simp only [run, hstep]
      exact List.mem_cons_self
    · obtain ⟨tail, hsent⟩ := ih (s := { s with derpOut := rest }) htop hpeer hrest hq
      refine ⟨.drain :: tail, ?_⟩
      simp only [run, hstep]
      exact List.mem_cons_of_mem _ hsent

/-- If `pump` waits, it takes the oldest packet and is back at the top. -/
theorem received {peer : Key} {q : Queued} (hpeer : s.peerKey = some peer)
    (hq : q ∈ s.derpOut.items) :
    ∃ tail, Output.sendPacket peer q.relayed.bytes (some q.dest) ∈ (s.run P tail).2 := by
  rcases hphase : s.phase with - | -
  · exact drained hphase hpeer hq
  rcases s.derpOut.tryReceive_cases with ⟨hnil, -⟩ | ⟨r, rest, hcons, he⟩
  · rw [hnil] at hq
    cases hq
  have hstep : s.step P .receive = ({ s with derpOut := rest, phase := .top },
      [.sendPacket peer r.relayed.bytes (some r.dest)]) := by
    simp only [step, if_pos hphase, he]
    exact forward_some (s := { s with derpOut := rest, phase := .top }) hpeer r
  rw [hcons] at hq
  rcases List.mem_cons.mp hq with rfl | hq
  · refine ⟨[.receive], ?_⟩
    simp only [run, hstep]
    exact List.mem_cons_self
  · obtain ⟨tail, hsent⟩ :=
      drained (s := { s with derpOut := rest, phase := .top }) (P := P) rfl hpeer hq
    refine ⟨.receive :: tail, ?_⟩
    simp only [run, hstep]
    exact List.mem_cons_of_mem _ hsent

/-- From a state that is not aligned the run can go on to misdirect. -/
theorem misdirects (h : ¬ s.Aligned) : ∃ tail, ¬ Straight (s.run P tail).2 := by
  simp only [Aligned, not_forall] at h
  obtain ⟨peer, hpeer, q, hq, hne⟩ := h
  obtain ⟨tail, hsent⟩ := received (P := P) hpeer hq
  exact ⟨tail, fun hstraight => hne (hstraight _ _ _ hsent).symm⟩

/-- **Relayed packets and their return path.**  In every run of the datapath
whose steps keep the channel aligned, each packet that was encrypted for `k`
and is sent through the relay is sent to `k`.  The condition is exact: after
such a run, a step that does not meet it leads to a run in which a packet goes
to another key. -/
theorem relayed_to_return_path (hP : P.Lawful) (hB : P.BoxInPlace) (nodeKey : NodePrivate)
    (discoKey : DiscoPrivate) (indexSeed : UInt32) (events : List Event)
    (h : (start (Node.new P nodeKey discoKey indexSeed)).Follows P events) :
    Straight ((start (Node.new P nodeKey discoKey indexSeed)).run P events).2 ∧
    ∀ e, ¬ ((start (Node.new P nodeKey discoKey indexSeed)).run P events).1.Keeps e →
      ∃ tail, ¬ Straight
        ((start (Node.new P nodeKey discoKey indexSeed)).run P (events ++ e :: tail)).2 := by
  have hstart : (start (Node.new P nodeKey discoKey indexSeed)).Aligned := by
    intro peer hp
    cases hp
  obtain ⟨hstraight, halign⟩ := hstart.run hP hB h
  refine ⟨hstraight, fun e he => ?_⟩
  obtain ⟨tail, hmis⟩ := misdirects (P := P) (mt (halign.step hP hB e).2.mp he)
  refine ⟨tail, fun hall => hmis ?_⟩
  rw [run_append] at hall
  exact (straight_append.mp (straight_append.mp hall).2).2

theorem read_key (k : Key) (packet : List UInt8) : Bytes.read 32 (k.toList ++ packet) 0 = k := by
  apply read_eq
  rw [slice, List.drop_zero, List.take_left' k.length_toList]

theorem drop_key (k : Key) (packet : List UInt8) : (k.toList ++ packet).drop keyLen = packet :=
  List.drop_left' k.length_toList

theorem keyLen_lt (k : Key) {packet : List UInt8} (h : packet ≠ []) :
    keyLen < (k.toList ++ packet).length := by
  rw [List.length_append, Vector.length_toList]
  exact Nat.lt_add_of_pos_right (List.length_pos_of_ne_nil h)

/-- Any client of the relay that knows the node's key can set up a session,
with its own key as the return path. -/
theorem handleFrame_new_initiation (hP : P.Lawful) (hD : P.DhCommutes) (hB : P.BoxInPlace)
    (s : Datapath) (i ei : NodePrivate) (xi : UInt32) (ts : Tai64n) (k : Key) :
    ∃ initiator msg slot response,
      Initiator.new P i (s.node.nodeKey.public P) ei xi ts = .ok (initiator, msg) ∧
      s.handleFrame P .recvPacket (k.toList ++ msg) =
        ({ s with
            node := { s.node with
              nextIndex := Node.indexAfter s.node.nextIndex
              peer := some slot }
            peerKey := some k },
          [.sendPacket k response none]) ∧
      slot.source = .derp k ∧ slot.session.sendCounter = 0 := by
  obtain ⟨initiator, msg, responder, slot, response, hnew, hconsume, he, hsource, hcounter⟩ :=
    Node.handle_new_initiation hP hD s.node i ei xi ts (.derp k)
  have hmsg : msg ≠ [] := by
    rintro rfl
    cases Responder.head_of_consumeInitiation hconsume
  refine ⟨initiator, msg, slot, response, hnew, ?_, hsource, hcounter⟩
  simp only [handleFrame, if_pos (keyLen_lt k hmsg), read_key, drop_key, he]
  exact sendPacket_of_le (Node.length_reply hP hB he) _ k none

/-- Whatever a client sends makes it the peer. -/
theorem handleFrame_rubbish (s : Datapath) (k : Key) :
    s.handleFrame P .recvPacket (k.toList ++ [0]) = ({ s with peerKey := some k }, []) := by
  simp only [handleFrame, if_pos (keyLen_lt k (List.cons_ne_nil 0 [])), read_key, drop_key]
  rfl

/-- A session over the relay, and one packet out of the tunnel. -/
theorem relayed_to_return_path_one_client :
    let P := checksumPrimitives
    let key (n : UInt8) : NodePrivate := ⟨Vector.replicate 32 n⟩
    let k : Key := Vector.replicate 32 6
    let s := start (Node.new P (key 2) ⟨Vector.replicate 32 4⟩ 9)
    P.Lawful ∧ P.BoxInPlace ∧ ∃ initiator msg,
      Initiator.new P (key 1) ((key 2).public P) (key 3) 7 ⟨Vector.replicate 12 5⟩ =
        .ok (initiator, msg) ∧
      let events := [.parsed (some (.recvPacket, k.toList ++ msg)), .outbound [0x45], .drain]
      s.Follows P events ∧ Straight (s.run P events).2 := by
  intro P key k s
  obtain ⟨initiator, msg, slot, response, hnew, he, hsource, -⟩ :=
    handleFrame_new_initiation checksumAead_lawful checksumPrimitives_dhCommutes
      checksumPrimitives_boxInPlace s (key 1) (key 3) 7 ⟨Vector.replicate 12 5⟩ k
  have hfollows : s.Follows P
      [.parsed (some (.recvPacket, k.toList ++ msg)), .outbound [0x45], .drain] := by
    refine ⟨fun _ _ _ _ q hq => absurd hq List.not_mem_nil, ?_, trivial, trivial⟩
    rw [step_frame rfl rfl, he]
    intro slot' k' peer hs hk _ _ hp
    obtain rfl := Option.some.inj hs
    obtain rfl := Option.some.inj hp
    exact Source.derp.inj (hsource.symm.trans hk)
  exact ⟨checksumAead_lawful, checksumPrimitives_boxInPlace, initiator, msg, hnew, hfollows,
    (relayed_to_return_path checksumAead_lawful checksumPrimitives_boxInPlace (key 2)
      ⟨Vector.replicate 32 4⟩ 9 _ hfollows).1⟩

/-- A session with one client of the relay, a byte of rubbish from another, and
then a packet out of the tunnel: it was encrypted for the first, and is sent to
the second. -/
theorem relayed_to_another_client :
    let P := checksumPrimitives
    let key (n : UInt8) : NodePrivate := ⟨Vector.replicate 32 n⟩
    let k : Key := Vector.replicate 32 6
    let k' : Key := Vector.replicate 32 8
    let s := start (Node.new P (key 2) ⟨Vector.replicate 32 4⟩ 9)
    k' ≠ k ∧ ∃ initiator msg,
      Initiator.new P (key 1) ((key 2).public P) (key 3) 7 ⟨Vector.replicate 12 5⟩ =
        .ok (initiator, msg) ∧
      ∃ packet, Output.sendPacket k' packet (some k) ∈
        (s.run P [.parsed (some (.recvPacket, k.toList ++ msg)),
          .parsed (some (.recvPacket, k'.toList ++ [0])), .outbound [0x45], .drain]).2 := by
  intro P key k k' s
  obtain ⟨initiator, msg, slot, response, hnew, he, hsource, hcounter⟩ :=
    handleFrame_new_initiation checksumAead_lawful checksumPrimitives_dhCommutes
      checksumPrimitives_boxInPlace s (key 1) (key 3) 7 ⟨Vector.replicate 12 5⟩ k
  have hfits : slot.session.Fits [0x45] bufferLen := by
    refine ⟨?_, by decide⟩
    rw [hcounter]
    decide
  let s₁ : Datapath := { s with
    node := { s.node with nextIndex := Node.indexAfter s.node.nextIndex, peer := some slot }
    peerKey := some k }
  let s₂ : Datapath := { s₁ with peerKey := some k' }
  have hpeer : s₂.node.peer = some slot := rfl
  obtain ⟨node, cipher, henc⟩ := Node.encrypt_of_fits (P := P) checksumAead_lawful hpeer hfits
  rw [hsource] at henc
  let s₃ : Datapath := { s₂ with node := node, derpOut := .trySend .new ⟨Relayed.new cipher, k⟩ }
  have h₁ : s.step P (.parsed (some (.recvPacket, k.toList ++ msg))) =
      (s₁, [.sendPacket k response none]) := (step_frame rfl rfl _ _).trans he
  have h₂ : s₁.step P (.parsed (some (.recvPacket, k'.toList ++ [0]))) = (s₂, []) :=
    (step_frame rfl rfl _ _).trans (handleFrame_rubbish s₁ k')
  have h₃ : s₂.step P (.outbound [0x45]) = (s₃, []) := by
    simp only [step, henc]
    rfl
  have h₄ := step_drain (P := P) (s := s₃) rfl rfl rfl
  refine ⟨by decide, initiator, msg, hnew, (Relayed.new cipher).bytes, ?_⟩
  simp only [run, h₁, h₂, h₃, h₄]
  exact List.mem_cons_of_mem _ List.mem_cons_self

end Datapath

end Lando.Fw
