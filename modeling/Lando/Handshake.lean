/-
Lando/Handshake.lean

The WireGuard handshake, both roles (`wireguard/handshake.rs`).

Initiator and responder are written separately in the source and keep their
own running `(chaining key, hash)` pair; they meet only in the bytes of two
messages of fixed layout.  The model keeps the buffers: a message is a run
of zeros into which the fields are written at their offsets, and the other
side reads slices at the same offsets.

The agreement argument has two halves.  On the wire, `InitiationLayout` and
`ResponseLayout` say which field stands in which slice.  In the running
state, every step of one role is undone or repeated by the other
(`HandshakeState.open_seal`, `NodePrivate.dh_comm`), so both pairs stay equal from
`HandshakeState.new` to `HandshakeState.split`.
-/
import Lando.Session

namespace Lando

open Bytes

variable (P : Primitives)

/-! ### The running state -/

/-- The name of the Noise protocol. -/
def construction : List UInt8 := "Noise_IKpsk2_25519_ChaChaPoly_BLAKE2s".toUTF8.toList

/-- What WireGuard adds to the first hash. -/
def identifier : List UInt8 := "WireGuard v1 zx2c4 Jason@zx2c4.com".toUTF8.toList

/-- Every handshake cipher has a fresh key, so its nonce is always zero. -/
def zeroNonce : Nonce := Vector.replicate 12 0

/-- The all-zero pre-shared key. -/
def noPsk : Key := Vector.replicate 32 0

/-- The running chaining key and hash. -/
structure HandshakeState where
  c : Key
  h : Key
  deriving DecidableEq

namespace HandshakeState

/-- `HandshakeState::new`: both ends start from the responder's key. -/
def new (responderStatic : NodePublic) : HandshakeState :=
  let c := hash P construction
  let h := hashParts P [c.toList, identifier]
  let h := hashParts P [h.toList, responderStatic.bytes.toList]
  ⟨c, h⟩

/-- `mix_hash`: the text goes into the hash. -/
def mixHash (st : HandshakeState) (data : List UInt8) : HandshakeState :=
  { st with h := hashParts P [st.h.toList, data] }

/-- `mix_key`: the input goes into the chaining key. -/
def mixKey (st : HandshakeState) (input : List UInt8) : HandshakeState :=
  { st with c := (kdf P 1 st.c.toList input)[0] }

/-- Advances the chaining key and yields a single-use cipher. -/
def mixKeyAndCipher (st : HandshakeState) (input : List UInt8) : HandshakeState × Key :=
  let out := kdf P 2 st.c.toList input
  ({ st with c := out[0] }, out[1])

/-- Mixes the pre-shared key, its middle output into the hash. -/
def mixPsk (st : HandshakeState) : HandshakeState × Key :=
  let out := kdf P 3 st.c.toList noPsk.toList
  (({ st with c := out[0] } : HandshakeState).mixHash P out[1].toList, out[2])

/-- Encrypts `plaintext` into a field of `outLen` bytes and hashes the field. -/
def «seal» (st : HandshakeState) (cipher : Key) (outLen : ℕ) (plaintext : List UInt8) :
    Except WgError (HandshakeState × List UInt8) :=
  if outLen ≠ plaintext.length + tagLen then .error .shortBuffer
  else
    match P.encryptInPlaceDetached cipher zeroNonce st.h.toList plaintext with
    | none => .error .decrypt
    | some (body, tag) =>
        let out := body ++ tag.toList
        .ok (st.mixHash P out, out)

/-- Decrypts a field into `outLen` bytes and hashes the field. -/
def «open» (st : HandshakeState) (cipher : Key) (outLen : ℕ) (ciphertext : List UInt8) :
    Except WgError (HandshakeState × List UInt8) :=
  if ciphertext.length ≠ outLen + tagLen then .error .malformed
  else
    let body := ciphertext.take (ciphertext.length - tagLen)
    let tag := read 16 ciphertext (ciphertext.length - tagLen)
    match P.decryptInPlaceDetached cipher zeroNonce st.h.toList body tag with
    | none => .error .decrypt
    | some plain => .ok (st.mixHash P ciphertext, plain)

/-- The transport keys, in the initiator's order. -/
def split (st : HandshakeState) : Key × Key :=
  let out := kdf P 2 st.c.toList []
  (out[0], out[1])

end HandshakeState

/-! ### The initiator -/

/-- Our half of a handshake we started. -/
structure Initiator where
  state : HandshakeState
  ephemeral : NodePrivate
  staticPrivate : NodePrivate
  localIndex : UInt32

/-- Builds a handshake initiation. -/
def Initiator.new (staticPrivate : NodePrivate) (peerStatic : NodePublic)
    (ephemeral : NodePrivate) (localIndex : UInt32) (timestamp : Tai64n) :
    Except WgError (Initiator × List UInt8) := do
  let state := HandshakeState.new P peerStatic
  let msg := List.replicate initiationLen 0
  let msg := blit msg 0 [msgInitiation]
  let msg := blit msg 4 (toLE 4 localIndex.toNat)
  let ephemeralPub := ephemeral.public P
  let state := state.mixKey P ephemeralPub.bytes.toList
  let msg := blit msg 8 ephemeralPub.bytes.toList
  let state := state.mixHash P ephemeralPub.bytes.toList
  let (state, cipher) := state.mixKeyAndCipher P (ephemeral.dh P peerStatic).toList
  let (state, sealedStatic) ← state.seal P cipher 48 (staticPrivate.public P).bytes.toList
  let msg := blit msg 40 sealedStatic
  let (state, cipher) := state.mixKeyAndCipher P (staticPrivate.dh P peerStatic).toList
  let (state, sealedTime) ← state.seal P cipher 28 timestamp.bytes.toList
  let msg := blit msg 88 sealedTime
  let msg := blit msg 116 (mac1 P peerStatic (slice msg 0 116)).toList
  return (⟨state, ephemeral, staticPrivate, localIndex⟩, msg)

/-- Consumes the peer's response, yielding transport keys. -/
def Initiator.consumeResponse (self : Initiator) (msg : List UInt8) :
    Except WgError SessionKeys := do
  if msg.length ≠ responseLen ∨ msg.head? ≠ some msgResponse then throw .malformed
  let peerIndex := UInt32.ofNat (fromLE (slice msg 4 8))
  let peerEphemeral : NodePublic := ⟨read 32 msg 12⟩
  let state := self.state.mixKey P peerEphemeral.bytes.toList
  let state := state.mixHash P peerEphemeral.bytes.toList
  let state := state.mixKey P (self.ephemeral.dh P peerEphemeral).toList
  let state := state.mixKey P (self.staticPrivate.dh P peerEphemeral).toList
  let (state, cipher) := state.mixPsk P
  let (state, _) ← state.open P cipher 0 (slice msg 44 60)
  let (send, receive) := state.split P
  return ⟨send, receive, self.localIndex, peerIndex⟩

/-! ### The responder -/

/-- Our half of a handshake a peer started. -/
structure Responder where
  state : HandshakeState
  staticPrivate : NodePrivate
  peerStatic : NodePublic
  peerEphemeral : NodePublic
  peerIndex : UInt32

/-- What was learned from a peer's initiation before replying. -/
structure Initiation where
  peerStatic : NodePublic
  timestamp : Tai64n
  peerIndex : UInt32
  deriving DecidableEq

/-- Validates and decrypts a peer's initiation; `mac1` is checked before any
Curve25519 work. -/
def Responder.consumeInitiation (staticPrivate : NodePrivate) (msg : List UInt8) :
    Except WgError (Responder × Initiation) := do
  if msg.length ≠ initiationLen ∨ msg.head? ≠ some msgInitiation then throw .malformed
  let staticPublic := staticPrivate.public P
  let expected := mac1 P staticPublic (slice msg 0 116)
  if slice msg 116 132 ≠ expected.toList then throw .badMac
  let peerIndex := UInt32.ofNat (fromLE (slice msg 4 8))
  let state := HandshakeState.new P staticPublic
  let peerEphemeral : NodePublic := ⟨read 32 msg 8⟩
  let state := state.mixKey P peerEphemeral.bytes.toList
  let state := state.mixHash P peerEphemeral.bytes.toList
  let (state, cipher) := state.mixKeyAndCipher P (staticPrivate.dh P peerEphemeral).toList
  let (state, plain) ← state.open P cipher 32 (slice msg 40 88)
  let peerStatic : NodePublic := ⟨read 32 plain 0⟩
  let (state, cipher) := state.mixKeyAndCipher P (staticPrivate.dh P peerStatic).toList
  let (state, plain) ← state.open P cipher 12 (slice msg 88 116)
  let timestamp : Tai64n := ⟨read 12 plain 0⟩
  return (⟨state, staticPrivate, peerStatic, peerEphemeral, peerIndex⟩,
    ⟨peerStatic, timestamp, peerIndex⟩)

/-- Builds the response and derives transport keys; send and receive are the
reverse of the initiator's. -/
def Responder.respond (self : Responder) (ephemeral : NodePrivate) (localIndex : UInt32) :
    Except WgError (List UInt8 × SessionKeys) := do
  let msg := List.replicate responseLen 0
  let msg := blit msg 0 [msgResponse]
  let msg := blit msg 4 (toLE 4 localIndex.toNat)
  let msg := blit msg 8 (toLE 4 self.peerIndex.toNat)
  let ephemeralPub := ephemeral.public P
  let state := self.state.mixKey P ephemeralPub.bytes.toList
  let msg := blit msg 12 ephemeralPub.bytes.toList
  let state := state.mixHash P ephemeralPub.bytes.toList
  let state := state.mixKey P (ephemeral.dh P self.peerEphemeral).toList
  let state := state.mixKey P (ephemeral.dh P self.peerStatic).toList
  let (state, cipher) := state.mixPsk P
  let (state, sealedEmpty) ← state.seal P cipher 16 []
  let msg := blit msg 44 sealedEmpty
  let msg := blit msg 60 (mac1 P self.peerStatic (slice msg 0 60)).toList
  let (receive, send) := state.split P
  return (msg, ⟨send, receive, localIndex, self.peerIndex⟩)

/-! ### What stands where in the messages -/

/-- The layout of an initiation addressed to `recipient`. -/
structure InitiationLayout (msg : List UInt8) (sender : UInt32) (ephemeral : NodePublic)
    (sealedStatic sealedTime : List UInt8) (recipient : NodePublic) : Prop where
  length : msg.length = initiationLen
  head : msg.head? = some msgInitiation
  sender : slice msg 4 8 = toLE 4 sender.toNat
  ephemeral : slice msg 8 40 = ephemeral.bytes.toList
  sealedStatic : slice msg 40 88 = sealedStatic
  sealedTime : slice msg 88 116 = sealedTime
  mac : slice msg 116 132 = (mac1 P recipient (slice msg 0 116)).toList

/-- The writes of `Initiator::new`, in order. -/
theorem initiationLayout_blit (x : UInt32) (e : NodePublic) {s t : List UInt8}
    (hs : s.length = 48) (ht : t.length = 28) (r : NodePublic) :
    let msg := blit (blit (blit (blit (blit (List.replicate initiationLen 0) 0 [msgInitiation])
      4 (toLE 4 x.toNat)) 8 e.bytes.toList) 40 s) 88 t
    InitiationLayout P (blit msg 116 (mac1 P r (slice msg 0 116)).toList) x e s t r := by
  intro msg
  have l₀ : (List.replicate initiationLen (0 : UInt8)).length = 148 := List.length_replicate
  have he : e.bytes.toList.length = 32 := Vector.length_toList
  have hm : (mac1 P r (slice msg 0 116)).toList.length = 16 := Vector.length_toList
  obtain ⟨l₁, -, -, -⟩ := blit_spec 0 l₀ (List.length_singleton (a := msgInitiation)) (by decide)
  obtain ⟨l₂, s₂, -, h₂⟩ := blit_spec 4 l₁ (length_toLE 4 x.toNat) (by decide)
  obtain ⟨l₃, s₃, k₃, h₃⟩ := blit_spec 8 l₂ he (by decide)
  obtain ⟨l₄, s₄, k₄, h₄⟩ := blit_spec 40 l₃ hs (by decide)
  obtain ⟨l₅, s₅, k₅, h₅⟩ := blit_spec 88 l₄ ht (by decide)
  obtain ⟨l₆, s₆, k₆, h₆⟩ := blit_spec 116 l₅ hm (by decide)
  refine ⟨l₆, ?_, ?_, ?_, ?_, ?_, ?_⟩
  · rw [h₆ (by decide), h₅ (by decide), h₄ (by decide), h₃ (by decide), h₂ (by decide)]
    rfl
  · rw [k₆ _ _ (by decide), k₅ _ _ (by decide), k₄ _ _ (by decide), k₃ _ _ (by decide), s₂]
  · rw [k₆ _ _ (by decide), k₅ _ _ (by decide), k₄ _ _ (by decide), s₃]
  · rw [k₆ _ _ (by decide), k₅ _ _ (by decide), s₄]
  · rw [k₆ _ _ (by decide), s₅]
  · rw [k₆ 0 _ (by decide)]
    exact s₆

/-- The layout of a response addressed to `recipient`. -/
structure ResponseLayout (msg : List UInt8) (sender receiver : UInt32)
    (ephemeral : NodePublic) (sealedEmpty : List UInt8) (recipient : NodePublic) : Prop where
  length : msg.length = responseLen
  head : msg.head? = some msgResponse
  sender : slice msg 4 8 = toLE 4 sender.toNat
  receiver : slice msg 8 12 = toLE 4 receiver.toNat
  ephemeral : slice msg 12 44 = ephemeral.bytes.toList
  sealedEmpty : slice msg 44 60 = sealedEmpty
  mac : slice msg 60 76 = (mac1 P recipient (slice msg 0 60)).toList

/-- The writes of `Responder::respond`, in order. -/
theorem responseLayout_blit (x y : UInt32) (e : NodePublic) {s : List UInt8}
    (hs : s.length = 16) (r : NodePublic) :
    let msg := blit (blit (blit (blit (blit (List.replicate responseLen 0) 0 [msgResponse])
      4 (toLE 4 x.toNat)) 8 (toLE 4 y.toNat)) 12 e.bytes.toList) 44 s
    ResponseLayout P (blit msg 60 (mac1 P r (slice msg 0 60)).toList) x y e s r := by
  intro msg
  have l₀ : (List.replicate responseLen (0 : UInt8)).length = 92 := List.length_replicate
  have he : e.bytes.toList.length = 32 := Vector.length_toList
  have hm : (mac1 P r (slice msg 0 60)).toList.length = 16 := Vector.length_toList
  obtain ⟨l₁, -, -, -⟩ := blit_spec 0 l₀ (List.length_singleton (a := msgResponse)) (by decide)
  obtain ⟨l₂, s₂, -, h₂⟩ := blit_spec 4 l₁ (length_toLE 4 x.toNat) (by decide)
  obtain ⟨l₃, s₃, k₃, h₃⟩ := blit_spec 8 l₂ (length_toLE 4 y.toNat) (by decide)
  obtain ⟨l₄, s₄, k₄, h₄⟩ := blit_spec 12 l₃ he (by decide)
  obtain ⟨l₅, s₅, k₅, h₅⟩ := blit_spec 44 l₄ hs (by decide)
  obtain ⟨l₆, s₆, k₆, h₆⟩ := blit_spec 60 l₅ hm (by decide)
  refine ⟨l₆, ?_, ?_, ?_, ?_, ?_, ?_⟩
  · rw [h₆ (by decide), h₅ (by decide), h₄ (by decide), h₃ (by decide), h₂ (by decide)]
    rfl
  · rw [k₆ _ _ (by decide), k₅ _ _ (by decide), k₄ _ _ (by decide), k₃ _ _ (by decide), s₂]
  · rw [k₆ _ _ (by decide), k₅ _ _ (by decide), k₄ _ _ (by decide), s₃]
  · rw [k₆ _ _ (by decide), k₅ _ _ (by decide), s₄]
  · rw [k₆ _ _ (by decide), s₅]
  · rw [k₆ 0 _ (by decide)]
    exact s₆

/-! ### The two halves of the running state -/

variable {P}

/-- What one role seals, the other opens; both hash the same field. -/
theorem HandshakeState.open_seal (hA : P.Lawful) (st : HandshakeState) (cipher : Key)
    {p : List UInt8} (hp : p.length ≤ 64) {n : ℕ} (hn : n = p.length + 16) :
    ∃ out, st.seal P cipher n p = .ok (st.mixHash P out, out) ∧ out.length = n ∧
      st.open P cipher p.length out = .ok (st.mixHash P out, p) := by
  obtain ⟨body, tag, henc, hlen, hdec⟩ := hA.exists_encrypt cipher zeroNonce st.h.toList hp
  have hout : (body ++ tag.toList).length = p.length + 16 := by simp [hlen]
  refine ⟨body ++ tag.toList, ?_, by rw [hout, hn], ?_⟩
  · simp [HandshakeState.seal, hn, tagLen, henc]
  · have hsub : (body ++ tag.toList).length - 16 = body.length := by
      rw [hout, hlen, Nat.add_sub_cancel]
    have hbody : (body ++ tag.toList).take body.length = body := List.take_left
    have htag : read 16 (body ++ tag.toList) body.length = tag := by
      apply read_eq
      have h : slice (body ++ (tag.toList ++ [])) body.length (body.length + 16) = tag.toList :=
        slice_append_mid rfl (by simp)
      rwa [List.append_nil] at h
    unfold HandshakeState.open
    rw [if_neg (by simp [hlen, tagLen])]
    simp only [tagLen, hsub, hbody, htag, hdec]

theorem ok_bind {α β : Type} (a : α) (f : α → Except WgError β) :
    (Except.ok a >>= f) = f a := rfl

/-- The initiation a responder `r` receives.  Besides its layout, the lemma
gives the running state the initiator ends in, as the responder will build
it: by opening the two sealed fields. -/
theorem Initiator.new_eq (hA : P.Lawful) (i : NodePrivate) (r : NodePublic) (e : NodePrivate)
    (x : UInt32) (ts : Tai64n) :
    ∃ msg s t st₂ k₁ st₃ k₂,
      (((HandshakeState.new P r).mixKey P (e.public P).bytes.toList).mixHash P
        (e.public P).bytes.toList).mixKeyAndCipher P (e.dh P r).toList = (st₂, k₁) ∧
      (st₂.mixHash P s).mixKeyAndCipher P (i.dh P r).toList = (st₃, k₂) ∧
      Initiator.new P i r e x ts = .ok (⟨st₃.mixHash P t, e, i, x⟩, msg) ∧
      InitiationLayout P msg x (e.public P) s t r ∧
      st₂.open P k₁ 32 s = .ok (st₂.mixHash P s, (i.public P).bytes.toList) ∧
      st₃.open P k₂ 12 t = .ok (st₃.mixHash P t, ts.bytes.toList) := by
  have hpub : (i.public P).bytes.toList.length = 32 := Vector.length_toList
  have hts : ts.bytes.toList.length = 12 := Vector.length_toList
  rcases hk₁ : (((HandshakeState.new P r).mixKey P (e.public P).bytes.toList).mixHash P
    (e.public P).bytes.toList).mixKeyAndCipher P (e.dh P r).toList with ⟨st₂, k₁⟩
  obtain ⟨s, hseal₁, hslen, hopen₁⟩ :=
    st₂.open_seal hA k₁ (by rw [hpub]; decide) (show 48 = _ + 16 by rw [hpub])
  rcases hk₂ : (st₂.mixHash P s).mixKeyAndCipher P (i.dh P r).toList with ⟨st₃, k₂⟩
  obtain ⟨t, hseal₂, htlen, hopen₂⟩ :=
    st₃.open_seal hA k₂ (by rw [hts]; decide) (show 28 = _ + 16 by rw [hts])
  rw [hpub] at hopen₁
  rw [hts] at hopen₂
  refine ⟨_, s, t, st₂, k₁, st₃, k₂, rfl, hk₂, ?_,
    initiationLayout_blit P x (e.public P) hslen htlen r, hopen₁, hopen₂⟩
  simp only [Initiator.new, hk₁, hseal₁, hk₂, hseal₂, ok_bind]
  rfl

/-- The responder reads an initiation made for it. -/
theorem Responder.consumeInitiation_eq {r : NodePrivate} {msg s t : List UInt8} {x : UInt32}
    {e i : NodePublic} {ts : Tai64n} {st₂ st₃ st₄ : HandshakeState} {k₁ k₂ : Key}
    (hmsg : InitiationLayout P msg x e s t (r.public P))
    (h₁ : (((HandshakeState.new P (r.public P)).mixKey P e.bytes.toList).mixHash P
      e.bytes.toList).mixKeyAndCipher P (r.dh P e).toList = (st₂, k₁))
    (hopen₁ : st₂.open P k₁ 32 s = .ok (st₂.mixHash P s, i.bytes.toList))
    (h₂ : (st₂.mixHash P s).mixKeyAndCipher P (r.dh P i).toList = (st₃, k₂))
    (hopen₂ : st₃.open P k₂ 12 t = .ok (st₄, ts.bytes.toList)) :
    Responder.consumeInitiation P r msg = .ok (⟨st₄, r, i, e, x⟩, ⟨i, ts, x⟩) := by
  have hx : UInt32.ofNat (fromLE (slice msg 4 8)) = x := by
    have hlt : x.toNat < 256 ^ 4 := x.toNat_lt
    rw [hmsg.sender, fromLE_toLE hlt, UInt32.ofNat_toNat]
  have he : read 32 msg 8 = e.bytes := read_eq hmsg.ephemeral
  have hi : read 32 i.bytes.toList 0 = i.bytes :=
    read_eq (by simp [slice, List.take_of_length_le])
  have hts : read 12 ts.bytes.toList 0 = ts.bytes :=
    read_eq (by simp [slice, List.take_of_length_le])
  simp only [Responder.consumeInitiation, hmsg.length, hmsg.head, hmsg.mac, ne_eq,
    not_true_eq_false, or_self, if_false, he, h₁, hmsg.sealedStatic, hopen₁, hmsg.sealedTime,
    ok_bind, hi, h₂, hopen₂, hts, hx]
  rfl

/-- Whatever is accepted starts like an initiation. -/
theorem Responder.head_of_consumeInitiation {r : NodePrivate} {msg : List UInt8}
    {res : Responder × Initiation} (h : Responder.consumeInitiation P r msg = .ok res) :
    msg.head? = some msgInitiation := by
  by_contra hne
  rw [Responder.consumeInitiation, if_pos (Or.inr hne)] at h
  cases h

/-- The response a responder sends, and the state it ends in as the initiator
will build it. -/
theorem Responder.respond_eq (hA : P.Lawful) (self : Responder) (e : NodePrivate)
    (y : UInt32) :
    ∃ msg s st k,
      ((((self.state.mixKey P (e.public P).bytes.toList).mixHash P
        (e.public P).bytes.toList).mixKey P (e.dh P self.peerEphemeral).toList).mixKey P
        (e.dh P self.peerStatic).toList).mixPsk P = (st, k) ∧
      self.respond P e y =
        .ok (msg, ⟨((st.mixHash P s).split P).2, ((st.mixHash P s).split P).1, y,
          self.peerIndex⟩) ∧
      ResponseLayout P msg y self.peerIndex (e.public P) s self.peerStatic ∧
      st.open P k 0 s = .ok (st.mixHash P s, []) := by
  rcases hk : ((((self.state.mixKey P (e.public P).bytes.toList).mixHash P
    (e.public P).bytes.toList).mixKey P (e.dh P self.peerEphemeral).toList).mixKey P
    (e.dh P self.peerStatic).toList).mixPsk P with ⟨st, k⟩
  have hnil : ([] : List UInt8).length ≤ 64 := by decide
  obtain ⟨s, hseal, hslen, hopen⟩ := st.open_seal hA k hnil (show 16 = 0 + 16 from rfl)
  refine ⟨_, s, st, k, rfl, ?_,
    responseLayout_blit P y self.peerIndex (e.public P) hslen self.peerStatic, hopen⟩
  simp only [Responder.respond, hk, hseal, ok_bind]
  rfl

/-- The initiator reads a response made for it. -/
theorem Initiator.consumeResponse_eq (self : Initiator) {msg s : List UInt8}
    {x y : UInt32} {e dst : NodePublic} {st st' : HandshakeState} {k : Key} {p : List UInt8}
    (hmsg : ResponseLayout P msg y x e s dst)
    (hk : ((((self.state.mixKey P e.bytes.toList).mixHash P e.bytes.toList).mixKey P
      (self.ephemeral.dh P e).toList).mixKey P (self.staticPrivate.dh P e).toList).mixPsk P
      = (st, k))
    (hopen : st.open P k 0 s = .ok (st', p)) :
    self.consumeResponse P msg =
      .ok ⟨(st'.split P).1, (st'.split P).2, self.localIndex, y⟩ := by
  have hy : UInt32.ofNat (fromLE (slice msg 4 8)) = y := by
    have hlt : y.toNat < 256 ^ 4 := y.toNat_lt
    rw [hmsg.sender, fromLE_toLE hlt, UInt32.ofNat_toNat]
  have he : read 32 msg 12 = e.bytes := read_eq hmsg.ephemeral
  simp only [Initiator.consumeResponse, hmsg.length, hmsg.head, ne_eq, not_true_eq_false,
    or_self, if_false, he, hk, hmsg.sealedEmpty, hopen, ok_bind, hy]
  rfl

/-! ### Agreement -/

/-- An initiation is built for every responder, and accepted by it. -/
theorem Initiator.new_accepted (hA : P.Lawful) (hD : P.DhCommutes) (i r ei : NodePrivate)
    (xi : UInt32) (ts : Tai64n) :
    ∃ initiator msg responder,
      Initiator.new P i (r.public P) ei xi ts = .ok (initiator, msg) ∧
      msg.head? = some msgInitiation ∧
      Responder.consumeInitiation P r msg = .ok (responder, ⟨i.public P, ts, xi⟩) := by
  obtain ⟨msg, s, t, st₂, k₁, st₃, k₂, h₁, h₂, hnew, hmsg, hopen₁, hopen₂⟩ :=
    Initiator.new_eq hA i (r.public P) ei xi ts
  rw [NodePrivate.dh_comm hD ei r] at h₁
  rw [NodePrivate.dh_comm hD i r] at h₂
  exact ⟨_, msg, _, hnew, hmsg.head, Responder.consumeInitiation_eq hmsg h₁ hopen₁ h₂ hopen₂⟩

/-- Both messages of a handshake are built and accepted, and the two sets of
keys are mirrored. -/
theorem handshake_completes (hA : P.Lawful) (hD : P.DhCommutes) (i r ei er : NodePrivate)
    (xi xr : UInt32) (ts : Tai64n) :
    ∃ initiator msg responder resp ik rk,
      Initiator.new P i (r.public P) ei xi ts = .ok (initiator, msg) ∧
      Responder.consumeInitiation P r msg = .ok (responder, ⟨i.public P, ts, xi⟩) ∧
      responder.respond P er xr = .ok (resp, rk) ∧
      initiator.consumeResponse P resp = .ok ik ∧
      ik.Mirrored rk ∧ ik.localIndex = xi ∧ rk.localIndex = xr := by
  obtain ⟨msg, s, t, st₂, k₁, st₃, k₂, h₁, h₂, hnew, hmsg, hopen₁, hopen₂⟩ :=
    Initiator.new_eq hA i (r.public P) ei xi ts
  rw [NodePrivate.dh_comm hD ei r] at h₁
  rw [NodePrivate.dh_comm hD i r] at h₂
  have hcons := Responder.consumeInitiation_eq hmsg h₁ hopen₁ h₂ hopen₂
  obtain ⟨resp, s', st, k, hk, hresp, hlay, hopen⟩ := Responder.respond_eq hA
    ⟨st₃.mixHash P t, r, i.public P, ei.public P, xi⟩ er xr
  rw [NodePrivate.dh_comm hD er ei, NodePrivate.dh_comm hD er i] at hk
  have hfin := Initiator.consumeResponse_eq ⟨st₃.mixHash P t, ei, i, xi⟩ hlay hk hopen
  exact ⟨_, msg, _, resp, _, _, hnew, hcons, hresp, hfin, ⟨rfl, rfl, rfl, rfl⟩, rfl, rfl⟩

/-- **The handshake agrees.**  With a lawful cipher and a commuting X25519,
for all keys, ephemerals, indices and timestamps: the initiation is built
and accepted, the responder learns the initiator's identity, timestamp and
index, the response is built and accepted, and the two sets of keys are
mirrored; the sessions made of them carry every exchange in order, in both
directions. -/
theorem handshake_agrees (hA : P.Lawful) (hD : P.DhCommutes) (i r ei er : NodePrivate)
    (xi xr : UInt32) (ts : Tai64n) :
    ∃ initiator msg responder resp ik rk,
      Initiator.new P i (r.public P) ei xi ts = .ok (initiator, msg) ∧
      Responder.consumeInitiation P r msg = .ok (responder, ⟨i.public P, ts, xi⟩) ∧
      responder.respond P er xr = .ok (resp, rk) ∧
      initiator.consumeResponse P resp = .ok ik ∧
      ik.Mirrored rk ∧ ik.localIndex = xi ∧ rk.localIndex = xr ∧
      ∀ script, Session.Carries P.toAead (Session.new ik) (Session.new rk) script := by
  obtain ⟨initiator, msg, responder, resp, ik, rk, hnew, hcons, hresp, hfin, hmirrored, hi, hr⟩ :=
    handshake_completes hA hD i r ei er xi xr ts
  exact ⟨initiator, msg, responder, resp, ik, rk, hnew, hcons, hresp, hfin, hmirrored, hi, hr,
    Session.carries_new hA.decrypt_encrypt hmirrored⟩

/-- The handshake of two small keys. -/
theorem handshake_agrees_small_keys :
    let P := checksumPrimitives
    let key (n : UInt8) : NodePrivate := ⟨Vector.replicate 32 n⟩
    P.Lawful ∧ P.DhCommutes ∧
    ∃ initiator msg responder resp ik rk,
      Initiator.new P (key 1) ((key 2).public P) (key 3) 7 ⟨Vector.replicate 12 5⟩
        = .ok (initiator, msg) ∧
      Responder.consumeInitiation P (key 2) msg
        = .ok (responder, ⟨(key 1).public P, ⟨Vector.replicate 12 5⟩, 7⟩) ∧
      responder.respond P (key 4) 9 = .ok (resp, rk) ∧
      initiator.consumeResponse P resp = .ok ik ∧
      ik.Mirrored rk ∧ ik.localIndex = 7 ∧ rk.localIndex = 9 ∧
      ∀ script, Session.Carries P.toAead (Session.new ik) (Session.new rk) script := by
  intro P key
  exact ⟨checksumAead_lawful, checksumPrimitives_dhCommutes,
    handshake_agrees checksumAead_lawful checksumPrimitives_dhCommutes (key 1) (key 2) (key 3)
      (key 4) 7 9 ⟨Vector.replicate 12 5⟩⟩

end Lando
