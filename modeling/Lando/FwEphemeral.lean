/-
Lando/FwEphemeral.lean

Where the firmware's responder takes its ephemeral keys from
(`lando-fw/src/wg.rs`, `Node::handle`).

The private half of an ephemeral is thrown away with the handshake, and that is
all that forward secrecy rests on.  `Handshake` keeps it: it puts together what
an accepted initiation makes the responder compute, the ephemeral included, and
`handle_handshake` says that this is what `handle` sends and installs.

The ephemeral is the index and the length of the initiation.  The length of an
accepted initiation never varies, and the response carries the index in the
clear (`sender_of_respond`).  So whoever sees the response has the private key
(`ephemeralOf`).
-/
import Lando.FwNode

namespace Lando

open Bytes

/-! ### What a response shows -/

/-- Only an initiation of full length is accepted. -/
theorem Responder.length_of_consumeInitiation {P : Primitives} {r : NodePrivate}
    {msg : List UInt8} {res : Responder × Initiation}
    (h : Responder.consumeInitiation P r msg = .ok res) : msg.length = initiationLen := by
  by_contra hne
  rw [Responder.consumeInitiation, if_pos (Or.inl hne)] at h
  cases h

/-- A sealed field ends in a tag. -/
theorem HandshakeState.tagLen_le_seal {P : Primitives} {st st' : HandshakeState} {cipher : Key}
    {outLen : ℕ} {plain out : List UInt8} (h : st.seal P cipher outLen plain = .ok (st', out)) :
    tagLen ≤ out.length := by
  unfold HandshakeState.seal at h
  split_ifs at h
  rcases he : P.encryptInPlaceDetached cipher zeroNonce st.h.toList plain with - | ⟨body, tag⟩
  · rw [he] at h
    cases h
  · rw [he] at h
    obtain ⟨-, rfl⟩ := Prod.mk.inj (Except.ok.inj h)
    rw [List.length_append, Vector.length_toList]
    exact Nat.le_add_left _ _

/-- Whatever the primitives do, a response carries the index of its sender. -/
theorem Responder.sender_of_respond {P : Primitives} {self : Responder} {e : NodePrivate}
    {y : UInt32} {response : List UInt8} {keys : SessionKeys}
    (h : self.respond P e y = .ok (response, keys)) : slice response 4 8 = toLE 4 y.toNat := by
  unfold Responder.respond at h
  rcases hk : ((((self.state.mixKey P (e.public P).bytes.toList).mixHash P
    (e.public P).bytes.toList).mixKey P (e.dh P self.peerEphemeral).toList).mixKey P
    (e.dh P self.peerStatic).toList).mixPsk P with ⟨st, cipher⟩
  simp only [hk] at h
  rcases hs : st.seal P cipher 16 [] with err | ⟨st', sealedEmpty⟩
  · rw [hs] at h
    cases h
  rw [hs, ok_bind] at h
  obtain ⟨hresponse, -⟩ := Prod.mk.inj (Except.ok.inj h)
  have he : (e.public P).bytes.toList.length = 32 := Vector.length_toList
  have l₀ : (List.replicate responseLen (0 : UInt8)).length = 92 := List.length_replicate
  obtain ⟨l₁, -, -, -⟩ := blit_spec 0 l₀ (List.length_singleton (a := msgResponse)) (by decide)
  obtain ⟨l₂, s₂, -, -⟩ := blit_spec 4 l₁ (length_toLE 4 y.toNat) (by decide)
  obtain ⟨l₃, -, k₃, -⟩ := blit_spec 8 l₂ (length_toLE 4 self.peerIndex.toNat) (by decide)
  obtain ⟨l₄, -, k₄, -⟩ := blit_spec 12 l₃ he (by decide)
  -- the sealed field may be of any length, but it stands behind the index
  have l₅ : 60 ≤ (blit (blit (blit (blit (blit (List.replicate responseLen 0) 0 [msgResponse]) 4
      (toLE 4 y.toNat)) 8 (toLE 4 self.peerIndex.toNat)) 12 (e.public P).bytes.toList) 44
      sealedEmpty).length := by
    have htag := HandshakeState.tagLen_le_seal hs
    rw [tagLen] at htag
    rw [blit, List.length_append, List.length_append, List.length_take, l₄]
    omega
  rw [← hresponse, slice_blit_front (by decide) l₅, slice_blit_front (by decide) (by omega),
    k₄ _ _ (by decide), k₃ _ _ (by decide), s₂]

end Lando

namespace Lando.Fw

open Bytes

/-! ### Handshakes -/

/-- A handshake answered: what `respond` was given and what it returned. -/
structure Handshake where
  index : UInt32
  ephemeral : NodePrivate
  response : List UInt8
  keys : SessionKeys

variable {P : Primitives} {node : Node} {packet : List UInt8} {h h' : Handshake}

/-- The handshake that a packet starts. -/
def Node.handshake (P : Primitives) (node : Node) (packet : List UInt8) : Option Handshake :=
  match Responder.consumeInitiation P node.nodeKey packet with
  | .error _ => none
  | .ok (responder, _) =>
      let index := node.nextIndex
      let ephemeral := NodePrivate.fromBytes (ephemeralSeed index packet.length)
      match responder.respond P ephemeral index with
      | .error _ => none
      | .ok (response, keys) => some ⟨index, ephemeral, response, keys⟩

theorem Node.handshake_cases (hh : node.handshake P packet = some h) :
    ∃ responder learned, Responder.consumeInitiation P node.nodeKey packet =
        .ok (responder, learned) ∧
      h.index = node.nextIndex ∧
      h.ephemeral = NodePrivate.fromBytes (ephemeralSeed h.index packet.length) ∧
      responder.respond P h.ephemeral h.index = .ok (h.response, h.keys) := by
  unfold handshake at hh
  rcases hc : Responder.consumeInitiation P node.nodeKey packet with e | ⟨responder, learned⟩
  · rw [hc] at hh
    cases hh
  rw [hc] at hh
  rcases hr : responder.respond P
      (NodePrivate.fromBytes (ephemeralSeed node.nextIndex packet.length)) node.nextIndex
    with e | ⟨response, keys⟩
  · simp only [hr] at hh
    cases hh
  · simp only [hr] at hh
    obtain rfl := Option.some.inj hh
    exact ⟨responder, learned, rfl, rfl, rfl, hr⟩

/-- What `handle` does with an initiation is that handshake: its response is the
reply, and its keys are those of the session. -/
theorem Node.handle_handshake (hh : node.handshake P packet = some h) (source : Source)
    {outLen : ℕ} (hout : h.response.length ≤ outLen) :
    ∃ key, node.handle P packet source outLen =
      ({ node with
          nextIndex := indexAfter node.nextIndex
          peer := some ⟨key, Session.new h.keys, source⟩ }, some (.reply h.response)) := by
  obtain ⟨responder, learned, hc, hindex, heph, hr⟩ := handshake_cases hh
  rw [heph, hindex] at hr
  refine ⟨learned.peerStatic, ?_⟩
  rw [handle_initiation (Responder.head_of_consumeInitiation hc), handleInitiation, hc]
  simp only [hr, if_neg (Nat.not_lt.mpr hout)]

/-- Some device, after some history, answers some initiation so. -/
def Answered (P : Primitives) (h : Handshake) : Prop :=
  ∃ nodeKey discoKey indexSeed events packet source,
    let node := (Node.new P nodeKey discoKey indexSeed).run P events
    node.handshake P packet = some h ∧
      (node.handle P packet source bufferLen).2 = some (.reply h.response)

/-! ### What an eavesdropper learns -/

/-- The ephemeral behind a response, from the bytes 4 to 8 of it. -/
def ephemeralOf (response : List UInt8) : NodePrivate :=
  NodePrivate.fromBytes (Node.ephemeralSeed (.ofNat (fromLE (slice response 4 8))) initiationLen)

theorem Answered.ephemeral (ha : Answered P h) :
    h.ephemeral = NodePrivate.fromBytes (Node.ephemeralSeed h.index initiationLen) := by
  obtain ⟨_, _, _, _, packet, _, hh, -⟩ := ha
  obtain ⟨responder, learned, hc, -, heph, -⟩ := Node.handshake_cases hh
  rw [heph, Responder.length_of_consumeInitiation hc]

theorem Answered.index (ha : Answered P h) :
    UInt32.ofNat (fromLE (slice h.response 4 8)) = h.index := by
  obtain ⟨_, _, _, _, packet, _, hh, -⟩ := ha
  obtain ⟨responder, learned, -, -, -, hr⟩ := Node.handshake_cases hh
  -- four bytes hold an index
  have hlt : h.index.toNat < 256 ^ 4 := h.index.toNat_lt
  rw [Responder.sender_of_respond hr, fromLE_toLE hlt, UInt32.ofNat_toNat]

theorem Answered.ephemeral_eq (ha : Answered P h) : h.ephemeral = ephemeralOf h.response := by
  rw [ephemeralOf, ha.index, ha.ephemeral]

/-- An eavesdropper cannot tell the ephemeral from the response, and handshakes
with one index may have different ones. -/
def EphemeralsHidden (P : Primitives) : Prop :=
  (¬ ∃ f : List UInt8 → NodePrivate, ∀ h, Answered P h → h.ephemeral = f h.response) ∧
    ¬ ∀ h h', Answered P h → Answered P h' → h.index = h'.index → h.ephemeral = h'.ephemeral

/-- **Ephemeral keys are public.**  Whatever the primitives: one function gives
the ephemeral private key of every handshake of every device from the bytes of
the response, and handshakes with equal indices, on whatever devices, share it. -/
theorem ephemerals_public (P : Primitives) :
    (∀ h, Answered P h → h.ephemeral = ephemeralOf h.response) ∧
    (∀ h h', Answered P h → Answered P h' → h.index = h'.index → h.ephemeral = h'.ephemeral) ∧
    ¬ EphemeralsHidden P := by
  have hof : ∀ h, Answered P h → h.ephemeral = ephemeralOf h.response :=
    fun h ha => ha.ephemeral_eq
  refine ⟨hof, ?_, fun hidden => hidden.1 ⟨ephemeralOf, hof⟩⟩
  intro h h' ha ha' hindex
  rw [ha.ephemeral, ha'.ephemeral, hindex]

/-- A peer that knows a device's key gets it to answer. -/
theorem exists_handshake (hP : P.Lawful) (hD : P.DhCommutes) (node : Node) (i ei : NodePrivate)
    (xi : UInt32) (ts : Tai64n) :
    ∃ initiator msg h, Initiator.new P i (node.nodeKey.public P) ei xi ts = .ok (initiator, msg) ∧
      node.handshake P msg = some h ∧ h.index = node.nextIndex ∧
      ∀ source, (node.handle P msg source bufferLen).2 = some (.reply h.response) := by
  obtain ⟨initiator, msg, responder, hnew, -, hconsume⟩ :=
    Initiator.new_accepted hP hD i node.nodeKey ei xi ts
  obtain ⟨response, s, st, k, -, hrespond, hlayout, -⟩ := responder.respond_eq hP
    (NodePrivate.fromBytes (Node.ephemeralSeed node.nextIndex msg.length)) node.nextIndex
  obtain ⟨h, hh, hresponse⟩ : ∃ h, node.handshake P msg = some h ∧ h.response = response := by
    unfold Node.handshake
    simp only [hconsume, hrespond]
    exact ⟨_, rfl, rfl⟩
  obtain ⟨-, -, -, hindex, -, -⟩ := Node.handshake_cases hh
  have hroom : h.response.length ≤ bufferLen := by
    rw [hresponse, hlayout.length]
    decide
  refine ⟨initiator, msg, h, hnew, hh, hindex, ?_⟩
  intro source
  obtain ⟨key, he⟩ := Node.handle_handshake hh source hroom
  rw [he]

/-- Two devices with different keys and different seeds answer two peers with one
ephemeral, and it stands in the clear in both responses. -/
theorem ephemeral_shared_by_two_devices :
    let P := checksumPrimitives
    let key (n : UInt8) : NodePrivate := ⟨Vector.replicate 32 n⟩
    let disco (n : UInt8) : DiscoPrivate := ⟨Vector.replicate 32 n⟩
    let here := Node.new P (key 2) (disco 3) 4
    let there := Node.new P (key 5) (disco 6) 5
    (∃ initiator msg initiator' msg' h h',
      Initiator.new P (key 1) ((key 2).public P) (key 7) 7 ⟨Vector.replicate 12 5⟩ =
        .ok (initiator, msg) ∧
      Initiator.new P (key 8) ((key 5).public P) (key 9) 9 ⟨Vector.replicate 12 6⟩ =
        .ok (initiator', msg') ∧
      here.handshake P msg = some h ∧ there.handshake P msg' = some h' ∧
      h.ephemeral = h'.ephemeral ∧ ephemeralOf h.response = h.ephemeral ∧
      ephemeralOf h'.response = h.ephemeral) ∧
    ¬ EphemeralsHidden P := by
  intro P key disco here there
  let relay : Source := .derp (Vector.replicate 32 6)
  refine ⟨?_, fun hidden => hidden.1 ⟨ephemeralOf, fun h ha => ha.ephemeral_eq⟩⟩
  obtain ⟨initiator, msg, h, hmsg, hh, hindex, hreply⟩ :=
    exists_handshake checksumAead_lawful checksumPrimitives_dhCommutes here (key 1) (key 7) 7
      ⟨Vector.replicate 12 5⟩
  obtain ⟨initiator', msg', h', hmsg', hh', hindex', hreply'⟩ :=
    exists_handshake checksumAead_lawful checksumPrimitives_dhCommutes there (key 8) (key 9) 9
      ⟨Vector.replicate 12 6⟩
  -- both seeds give index 5
  have ha : Answered P h := ⟨key 2, disco 3, 4, [], msg, relay, hh, hreply relay⟩
  have ha' : Answered P h' := ⟨key 5, disco 6, 5, [], msg', relay, hh', hreply' relay⟩
  have hsame : h.ephemeral = h'.ephemeral := by
    rw [ha.ephemeral, ha'.ephemeral, hindex, hindex']
    rfl
  exact ⟨initiator, msg, initiator', msg', h, h', hmsg, hmsg', hh, hh', hsame,
    ha.ephemeral_eq.symm, ha'.ephemeral_eq.symm.trans hsame.symm⟩

end Lando.Fw
