/-
Lando/FwNonces.lean

The nonces of the firmware's pongs (`lando-fw/src/wg.rs`, `bump` and
`Node::handle`).

The nonce is a counter of 24 bytes, the lowest first, and `bump` is its
successor:

    value (bump nonce) = value nonce + 1   mod 2^192

A ping bumps it before the pong is written, whether or not that succeeds, and
nothing else touches it.  So the `j`-th ping of a run has the `j`-th nonce behind
the one the run starts from, and no two pongs of a run of less than `2^192` pings
share one.
-/
import Lando.FwDisco

namespace Lando.Fw

open Bytes

/-! ### The counter -/

/-- A carry goes on behind the bytes that become zero. -/
theorem fromLE_bumpBytes (bs : List UInt8) :
    fromLE (bumpBytes bs) = (fromLE bs + 1) % 256 ^ bs.length := by
  induction bs with
  | nil => rfl
  | cons b bs ih =>
    have hb := b.toNat_lt
    have hlt := fromLE_lt (b :: bs)
    have hsucc : (b + 1).toNat = (b.toNat + 1) % 256 := UInt8.toNat_add b 1
    rw [List.length_cons, pow_succ] at hlt
    rw [bumpBytes, List.length_cons, pow_succ]
    rw [fromLE] at hlt ⊢
    split_ifs with hzero
    · -- no carry: the byte is less than 255, and the rest stays
      have hlast : b.toNat ≠ 255 := by
        intro h
        apply hzero
        rw [← UInt8.toNat_inj, hsucc, h]
        rfl
      have hbyte : (b + 1).toNat = b.toNat + 1 := by omega
      have hrest := fromLE_lt bs
      rw [fromLE, hbyte, Nat.mod_eq_of_lt (by omega)]
      omega
    · have hlast : b.toNat = 255 := by
        rw [ne_eq, not_not, ← UInt8.toNat_inj, hsucc, UInt8.toNat_zero] at hzero
        omega
      have hbyte : (b + 1).toNat = 0 := by omega
      have hsum : b.toNat + 256 * fromLE bs + 1 = 256 * (fromLE bs + 1) := by omega
      rw [fromLE, hbyte, ih, hsum, Nat.mul_comm (256 ^ bs.length), Nat.mul_mod_mul_left,
        Nat.zero_add]

/-- The number that a nonce stands for. -/
def nonceValue (nonce : BoxNonce) : ℕ := fromLE nonce.toList

theorem nonceValue_bump (nonce : BoxNonce) :
    nonceValue (bump nonce) = (nonceValue nonce + 1) % 2 ^ 192 := by
  have hbytes : (bump nonce).toList = bumpBytes nonce.toList := rfl
  rw [nonceValue, nonceValue, hbytes, fromLE_bumpBytes, Vector.length_toList]
  rfl

/-- Less than a full turn of the counter does not come back. -/
theorem add_mod_ne {m a j : ℕ} (h₀ : 0 < j) (h : j < m) : (a + j) % m ≠ a % m := by
  intro heq
  have hzero := Nat.sub_mod_eq_zero_of_mod_eq heq
  rw [Nat.add_sub_cancel_left, Nat.mod_eq_of_lt h] at hzero
  omega

/-- The nonce is more than `lo` bumps behind the start, and `hi` at most. -/
def Behind (start : BoxNonce) (lo hi : ℕ) (nonce : BoxNonce) : Prop :=
  ∃ j, lo < j ∧ j ≤ hi ∧ nonceValue nonce = (nonceValue start + j) % 2 ^ 192

namespace Behind

variable {start nonce : BoxNonce} {hi : ℕ}

/-- From one bump earlier the way is one longer. -/
theorem of_bump (h : Behind (bump start) 0 hi nonce) : Behind start 1 (1 + hi) nonce := by
  obtain ⟨j, hpos, hle, hvalue⟩ := h
  refine ⟨1 + j, by omega, by omega, ?_⟩
  rw [hvalue, nonceValue_bump, Nat.mod_add_mod, Nat.add_assoc]

theorem from_start (h : Behind start 1 hi nonce) : Behind start 0 hi nonce := by
  obtain ⟨j, hlt, hle, hvalue⟩ := h
  exact ⟨j, by omega, hle, hvalue⟩

theorem bump_start (start : BoxNonce) (hi : ℕ) : Behind start 0 (1 + hi) (bump start) :=
  ⟨1, Nat.one_pos, Nat.le_add_right 1 hi, nonceValue_bump start⟩

/-- Within one turn nothing further on is the next one. -/
theorem ne_bump (h : Behind start 1 hi nonce) (hturn : hi < 2 ^ 192) : nonce ≠ bump start := by
  rintro rfl
  obtain ⟨j, hlt, hle, hvalue⟩ := h
  have hj : nonceValue start + j = nonceValue start + 1 + (j - 1) := by omega
  rw [nonceValue_bump, hj] at hvalue
  exact add_mod_ne (show 0 < j - 1 by omega) (by omega) hvalue.symm

end Behind

/-! ### Calls of a node -/

/-- A packet that arrives, with room for `outLen` bytes of reply, or one that
leaves through the tunnel. -/
inductive NodeCall
  | handle (packet : List UInt8) (source : Source) (outLen : ℕ)
  | encrypt (packet : List UInt8) (outLen : ℕ)
  deriving DecidableEq

namespace Node

variable {P : Primitives} {node : Node}

/-- The node after a call. -/
def after (P : Primitives) (node : Node) : NodeCall → Node
  | .handle packet source outLen => (node.handle P packet source outLen).1
  | .encrypt packet outLen => (node.encrypt P packet outLen).1

/-- The packet is a disco ping that opens under the node's key. -/
def takesPing (P : Primitives) (node : Node) (packet : List UInt8) : Bool :=
  match Disco.parseHeader packet with
  | .error _ => false
  | .ok (header, sealed) =>
      match Disco.open P node.discoKey.bytes header sealed 256 with
      | .error _ => false
      | .ok plain => (Disco.parsePing plain).isOk

/-- The call answers a disco ping. -/
def isPing (P : Primitives) (node : Node) : NodeCall → Bool
  | .handle packet _ _ => node.takesPing P packet
  | .encrypt _ _ => false

/-- The bytes of a reply. -/
def replyOf : Option Action → Option (List UInt8)
  | some (.reply bytes) => some bytes
  | some (.deliver _) => none
  | none => none

/-- The pong that a call emits: the reply to a disco packet. -/
def pong (P : Primitives) (node : Node) : NodeCall → Option (List UInt8)
  | .handle packet source outLen =>
      if (Disco.parseHeader packet).isOk then replyOf (node.handle P packet source outLen).2
      else none
  | .encrypt _ _ => none

/-- The number of pings among calls, answered or not. -/
def pings (P : Primitives) : Node → List NodeCall → ℕ
  | _, [] => 0
  | node, c :: calls => (node.isPing P c).toNat + pings P (node.after P c) calls

/-- The pongs that calls emit, in order. -/
def pongs (P : Primitives) : Node → List NodeCall → List (List UInt8)
  | _, [] => []
  | node, c :: calls => (node.pong P c).toList ++ pongs P (node.after P c) calls

/-- The nonce that a disco message carries. -/
def carriedNonce (message : List UInt8) : Option BoxNonce :=
  (Disco.parseHeader message).toOption.map fun r => r.1.nonce

/-! ### One call -/

theorem writePong_wire {secret : Key} {ours peer : DiscoPublic} {nonce : BoxNonce}
    {txId : Vector UInt8 12} {srcIp : Vector UInt8 4} {srcPort : UInt16} {outLen : ℕ}
    {bytes : List UInt8}
    (h : Disco.writePong P secret ours peer nonce txId srcIp srcPort outLen = .ok bytes) :
    carriedNonce bytes = some nonce := by
  unfold Disco.writePong at h
  simp only at h
  split_ifs at h
  split at h
  · cases h
  next ciphertext tag _ =>
    obtain rfl := Except.ok.inj h
    have hparse := Disco.parseHeader_wire ours nonce (ciphertext, tag)
    show (Disco.parseHeader (Disco.wire ours nonce (ciphertext, tag))).toOption.map _ = _
    rw [hparse]
    rfl

theorem handleInitiation_nonce (node : Node) (packet : List UInt8) (source : Source)
    (outLen : ℕ) : (node.handleInitiation P packet source outLen).1.nonce = node.nonce := by
  unfold handleInitiation
  rcases Responder.consumeInitiation P node.nodeKey packet with e | ⟨responder, learned⟩
  · rfl
  simp only
  rcases responder.respond P (NodePrivate.fromBytes (ephemeralSeed node.nextIndex packet.length))
    node.nextIndex with e | ⟨response, keys⟩
  · rfl
  simp only
  split_ifs
  · rfl
  · rfl

theorem handleTransport_nonce (node : Node) (packet : List UInt8) (source : Source)
    (outLen : ℕ) : (node.handleTransport P packet source outLen).1.nonce = node.nonce := by
  rcases handleTransport_peer P node packet source outLen with
    ⟨-, he⟩ | ⟨slot, session, -, -, he, -⟩
  · rw [he]
  · rw [he]

/-- **What a call does with the nonce.**  A ping bumps it, and only a ping has a pong,
which carries the bumped one. -/
theorem call_nonce (P : Primitives) (node : Node) (c : NodeCall) :
    (node.after P c).nonce = cond (node.isPing P c) (bump node.nonce) node.nonce ∧
    ∀ bytes, node.pong P c = some bytes →
      node.isPing P c = true ∧ carriedNonce bytes = some (bump node.nonce) := by
  -- where there is no pong, there is nothing to show of one
  have hnone : ∀ {bytes : List UInt8}, none = some bytes → False :=
    fun h => Option.some_ne_none _ h.symm
  cases c with
  | encrypt packet outLen =>
    refine ⟨?_, fun _ h => (hnone h).elim⟩
    rcases encrypt_peer P node packet outLen with ⟨-, he⟩ | ⟨slot, session, out, -, -, he, -⟩
    · rw [after, he]
      rfl
    · rw [after, he]
      rfl
  | handle packet source outLen =>
    simp only [after, isPing, pong, takesPing, handle]
    rcases hd : Disco.parseHeader packet with e | ⟨header, sealed⟩
    · -- no disco packet
      refine ⟨?_, fun _ h => (hnone h).elim⟩
      rcases packet.head? with - | kind
      · rfl
      simp only
      split_ifs
      · exact handleInitiation_nonce node packet source outLen
      · exact handleTransport_nonce node packet source outLen
      · rfl
    simp only [handleDisco]
    rcases Disco.open P node.discoKey.bytes header sealed 256 with e | plain
    · exact ⟨rfl, fun _ h => (hnone h).elim⟩
    simp only
    rcases Disco.parsePing plain with e | ping
    · exact ⟨rfl, fun _ h => (hnone h).elim⟩
    simp only
    rcases hw : Disco.writePong P node.discoKey.bytes node.discoPublic header.sender
      (bump node.nonce) ping.txId (pongAddress source).1 (pongAddress source).2 outLen
      with e | written
    · -- the pong was not written, but the nonce is used up
      exact ⟨rfl, fun _ h => (hnone h).elim⟩
    · refine ⟨rfl, ?_⟩
      intro bytes hbytes
      obtain rfl := Option.some.inj hbytes
      exact ⟨rfl, writePong_wire hw⟩

/-! ### Every run -/

/-- The pongs of a run carry nonces behind the one it starts from, no two of them the
same. -/
theorem pongs_nonces (P : Primitives) (node : Node) (calls : List NodeCall)
    (h : pings P node calls < 2 ^ 192) :
    ∃ nonces : List BoxNonce, (pongs P node calls).map carriedNonce = nonces.map some ∧
      nonces.Nodup ∧ ∀ nonce ∈ nonces, Behind node.nonce 0 (pings P node calls) nonce := by
  induction calls generalizing node with
  | nil => exact ⟨[], rfl, List.nodup_nil, fun _ h => absurd h List.not_mem_nil⟩
  | cons c calls ih =>
    rw [pings] at h
    obtain ⟨nonces, hmap, hnodup, hbehind⟩ := ih (node.after P c) (by omega)
    obtain ⟨hnonce, hpong⟩ := call_nonce P node c
    rcases hping : node.isPing P c with - | -
    · -- no ping: no pong, and the same nonce
      have hnone : node.pong P c = none := by
        rw [Option.eq_none_iff_forall_ne_some]
        intro bytes hbytes
        have hyes := (hpong bytes hbytes).1
        rw [hping] at hyes
        cases hyes
      rw [hping, cond_false] at hnonce
      rw [hnonce] at hbehind
      refine ⟨nonces, ?_, hnodup, ?_⟩
      · rw [pongs, hnone]
        exact hmap
      · rw [pings, hping, Bool.toNat_false, Nat.zero_add]
        exact hbehind
    · rw [hping, cond_true] at hnonce
      rw [hping, Bool.toNat_true] at h
      rw [hnonce] at hbehind
      -- the later nonces are behind the one that this ping takes
      have hlater : ∀ nonce ∈ nonces,
          Behind node.nonce 1 (1 + pings P (node.after P c) calls) nonce :=
        fun nonce hmem => (hbehind nonce hmem).of_bump
      rw [pongs, pings, hping, Bool.toNat_true]
      rcases hp : node.pong P c with - | bytes
      · -- the ping failed behind the bump
        exact ⟨nonces, hmap, hnodup, fun nonce hmem => (hlater nonce hmem).from_start⟩
      · have hfirst : bump node.nonce ∉ nonces := fun hmem => (hlater _ hmem).ne_bump h rfl
        refine ⟨bump node.nonce :: nonces, ?_, List.nodup_cons.mpr ⟨hfirst, hnodup⟩, ?_⟩
        · rw [Option.toList_some, List.singleton_append, List.map_cons, List.map_cons, hmap,
            (hpong bytes hp).2]
        · intro nonce hmem
          rcases List.mem_cons.mp hmem with rfl | hmem
          · exact Behind.bump_start _ _
          · exact (hlater nonce hmem).from_start

/-- **No nonce twice.**  `bump` is the successor modulo `2^192`.  And from every state
of a node, whatever it is called with and with whatever room for the replies, as
long as there are less than `2^192` pings among the calls: each pong carries a
nonce, and no two of them the same. -/
theorem pongs_distinct_nonces (P : Primitives) (node : Node) (calls : List NodeCall)
    (h : pings P node calls < 2 ^ 192) :
    (∀ nonce, nonceValue (bump nonce) = (nonceValue nonce + 1) % 2 ^ 192) ∧
    ∃ nonces : List BoxNonce, (pongs P node calls).map carriedNonce = nonces.map some ∧
      nonces.Nodup := by
  obtain ⟨nonces, hmap, hnodup, -⟩ := pongs_nonces P node calls h
  exact ⟨nonceValue_bump, nonces, hmap, hnodup⟩

/-- A ping that is answered, one whose pong has no room, and a third one: the two
pongs have different nonces. -/
theorem pongs_distinct_nonces_three :
    let P := checksumPrimitives
    let disco (n : UInt8) : DiscoPrivate := ⟨Vector.replicate 32 n⟩
    let node := Node.new P ⟨Vector.replicate 32 1⟩ (disco 4) 5
    ∃ packet, Disco.sealTo P (disco 3) ((disco 4).public P) (Vector.replicate 24 7)
        (Disco.pingText 0 (Vector.replicate 12 9) []) = some packet ∧
      let ping (outLen : ℕ) := NodeCall.handle packet (.derp (Vector.replicate 32 2)) outLen
      let calls := [ping 1600, ping 10, ping 1600]
      pings P node calls = 3 ∧ (pongs P node calls).length = 2 ∧
      ∃ nonces : List BoxNonce, (pongs P node calls).map carriedNonce = nonces.map some ∧
        nonces.Nodup := by
  intro P disco node
  refine ⟨_, rfl, ?_⟩
  intro ping calls
  have hpings : pings P node calls = 3 := by decide +kernel
  refine ⟨hpings, by decide +kernel, ?_⟩
  exact (pongs_distinct_nonces P node calls (by rw [hpings]; decide)).2

end Node

end Lando.Fw
