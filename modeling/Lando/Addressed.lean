/-
Lando/Addressed.lean

Whom an accepted handshake message was addressed to
(`wireguard/handshake.rs`).

The indices of a handshake are not part of its transcript.  What ties them to
the rest of a message is `mac1`, a MAC under a hash of the recipient's public
key, and in a response the receiver field besides.  `Responder::consume_initiation`
checks `mac1` before anything else.  `Initiator::consume_response` checks neither
(`consumeResponse_eq_opens`): it reads the first byte, the sender field, and the
bytes 12 to 60, and whatever else a response is altered in, it is accepted as
before, with the peer index that stands in it now.

What it does check can be read off the bytes (`opens_iff`): the field 44 to 60 is
the one that a responder with the ephemeral key 12 to 44 seals.
-/
import Lando.Handshake

namespace Lando

open Bytes

variable (P : Primitives)

/-! ### What each side looks at -/

/-- The message is one for this responder. -/
def Responder.Addressed (r : NodePrivate) (msg : List UInt8) : Prop :=
  slice msg 116 132 = (mac1 P (r.public P) (slice msg 0 116)).toList

namespace Initiator

/-- The message is one for this initiator, and for this handshake of it. -/
structure Addressed (i : Initiator) (msg : List UInt8) : Prop where
  mac : slice msg 60 76 = (mac1 P (i.staticPrivate.public P) (slice msg 0 60)).toList
  receiver : slice msg 8 12 = toLE 4 i.localIndex.toNat

/-- The running state and the key for the empty field of a response, when the
responder's ephemeral key is `e`. -/
def answered (self : Initiator) (e : NodePublic) : HandshakeState × Key :=
  ((((self.state.mixKey P e.bytes.toList).mixHash P e.bytes.toList).mixKey P
    (self.ephemeral.dh P e).toList).mixKey P (self.staticPrivate.dh P e).toList).mixPsk P

/-- The running state once the empty field of a response is opened. -/
def opens (self : Initiator) (msg : List UInt8) : Except WgError HandshakeState :=
  let (state, cipher) := self.answered P ⟨read 32 msg 12⟩
  (state.open P cipher 0 (slice msg 44 60)).map Prod.fst

/-- The empty field of a response, as a responder with the ephemeral key `e` seals
it. -/
def emptyField (self : Initiator) (e : NodePublic) : Except WgError (List UInt8) :=
  let (state, cipher) := self.answered P e
  (state.seal P cipher 16 []).map Prod.snd

/-- The keys of a response that is accepted. -/
def keysOf (self : Initiator) (msg : List UInt8) (state : HandshakeState) : SessionKeys :=
  ⟨(state.split P).1, (state.split P).2, self.localIndex, .ofNat (fromLE (slice msg 4 8))⟩

variable {P}

theorem consumeResponse_eq_opens (self : Initiator) {msg : List UInt8}
    (hlength : msg.length = responseLen) (hhead : msg.head? = some msgResponse) :
    self.consumeResponse P msg = (self.opens P msg).map (self.keysOf P msg) := by
  have hshape : ¬ (msg.length ≠ responseLen ∨ msg.head? ≠ some msgResponse) := by
    rw [not_or, not_not, not_not]
    exact ⟨hlength, hhead⟩
  unfold consumeResponse opens answered
  rw [if_neg hshape]
  rcases hk : ((((self.state.mixKey P (read 32 msg 12).toList).mixHash P
    (read 32 msg 12).toList).mixKey P (self.ephemeral.dh P ⟨read 32 msg 12⟩).toList).mixKey P
    (self.staticPrivate.dh P ⟨read 32 msg 12⟩).toList).mixPsk P with ⟨state, cipher⟩
  simp only [hk]
  rcases state.open P cipher 0 (slice msg 44 60) with e | ⟨state', plain⟩
  · rfl
  · rfl

/-- **What is accepted.** -/
theorem consumeResponse_ok_iff {self : Initiator} {msg : List UInt8} {keys : SessionKeys} :
    self.consumeResponse P msg = .ok keys ↔
      msg.length = responseLen ∧ msg.head? = some msgResponse ∧
        ∃ state, self.opens P msg = .ok state ∧ keys = self.keysOf P msg state := by
  by_cases hshape : msg.length = responseLen ∧ msg.head? = some msgResponse
  · obtain ⟨hlength, hhead⟩ := hshape
    rw [consumeResponse_eq_opens self hlength hhead]
    rcases self.opens P msg with e | state
    · constructor
      · intro h
        cases h
      · rintro ⟨-, -, _, h, -⟩
        cases h
    · constructor
      · intro h
        exact ⟨hlength, hhead, state, rfl, (Except.ok.inj h).symm⟩
      · rintro ⟨-, -, _, h, rfl⟩
        rw [Except.ok.inj h]
        rfl
  · refine iff_of_false ?_ fun h => hshape ⟨h.1, h.2.1⟩
    rw [consumeResponse, if_pos (by rwa [ne_eq, ne_eq, ← not_and_or])]
    rintro ⟨⟩

/-- A field of no text opens exactly if it is the field that sealing no text
gives. -/
theorem open_iff_seal (hA : P.Lawful) (hT : P.TagChecked) (st : HandshakeState) (cipher : Key)
    {field : List UInt8} (hfield : field.length = 16) :
    (∃ r, st.open P cipher 0 field = .ok r) ↔
      (st.seal P cipher 16 []).map Prod.snd = .ok field := by
  have hread : (read 16 field 0).toList = field := by
    rw [toList_read (Nat.le_of_eq (by rw [hfield])), slice, List.drop_zero]
    exact List.take_of_length_le (Nat.le_of_eq hfield)
  have hopen : (∃ r, st.open P cipher 0 field = .ok r) ↔
      ∃ plain, P.decryptInPlaceDetached cipher zeroNonce st.h.toList [] (read 16 field 0) =
        some plain := by
    unfold HandshakeState.open
    rw [if_neg (by rw [hfield]; decide), hfield]
    simp only [tagLen, Nat.sub_self, List.take_zero]
    rcases P.decryptInPlaceDetached cipher zeroNonce st.h.toList [] (read 16 field 0) with - | plain
    · constructor
      · rintro ⟨r, h⟩
        cases h
      · rintro ⟨plain, h⟩
        cases h
    · exact ⟨fun _ => ⟨plain, rfl⟩, fun _ => ⟨_, rfl⟩⟩
  obtain ⟨body, tag, henc, hlen, hdec⟩ :=
    hA.exists_encrypt cipher zeroNonce st.h.toList (p := []) (Nat.zero_le _)
  obtain rfl : body = [] := List.length_eq_zero_iff.mp hlen
  have hseal : (st.seal P cipher 16 []).map Prod.snd = .ok tag.toList := by
    rw [HandshakeState.seal, if_neg (by decide), henc]
    rfl
  rw [hopen, hseal]
  constructor
  · rintro ⟨plain, hplain⟩
    -- the tag was made again
    have hagain := hT _ _ _ _ _ _ (by decide) hplain
    obtain rfl : plain = [] :=
      List.length_eq_zero_iff.mp (hA.encrypt_length _ _ _ _ _ _ hagain).symm
    rw [(Prod.mk.inj (Option.some.inj (henc.symm.trans hagain))).2, hread]
  · intro h
    have htag : read 16 field 0 = tag := by
      apply Vector.toList_inj.mp
      rw [hread, Except.ok.inj h]
    exact ⟨[], by rw [htag, hdec]⟩

/-- What an initiator checks of a response of the right shape. -/
theorem opens_iff (hA : P.Lawful) (hT : P.TagChecked) (self : Initiator) {msg : List UInt8}
    (hlength : msg.length = responseLen) :
    (∃ state, self.opens P msg = .ok state) ↔
      self.emptyField P ⟨read 32 msg 12⟩ = .ok (slice msg 44 60) := by
  have hfield : (slice msg 44 60).length = 16 := by
    rw [slice, List.length_take, List.length_drop, hlength]
    rfl
  unfold opens emptyField
  rcases self.answered P ⟨read 32 msg 12⟩ with ⟨state, cipher⟩
  simp only
  rw [← open_iff_seal hA hT state cipher hfield]
  rcases state.open P cipher 0 (slice msg 44 60) with e | r
  · constructor
    · rintro ⟨state', h⟩
      cases h
    · rintro ⟨r, h⟩
      cases h
  · exact ⟨fun _ => ⟨r, rfl⟩, fun _ => ⟨_, rfl⟩⟩

/-- Two messages that differ at most where the initiator does not look, or in
the sender field. -/
structure Alike (msg msg' : List UInt8) : Prop where
  length : msg'.length = msg.length
  head : msg'.head? = msg.head?
  sealed : slice msg' 12 60 = slice msg 12 60

theorem Alike.opens_eq {msg msg' : List UInt8} (h : Alike msg msg') (self : Initiator) :
    self.opens P msg' = self.opens P msg := by
  -- the ephemeral and the empty field, within what they have in common
  have hread : ∀ m : List UInt8, read 32 m 12 = read 32 (slice m 12 60) 0 := by
    intro m
    rw [read_slice (by decide)]
  have hslice : ∀ m : List UInt8, slice m 44 60 = slice (slice m 12 60) 32 48 := by
    intro m
    rw [slice_slice (by decide)]
  unfold opens
  rw [hread msg', hread msg, hslice msg', hslice msg, h.sealed]

theorem Alike.consumeResponse {msg msg' : List UInt8} (h : Alike msg msg') {self : Initiator}
    {keys : SessionKeys} (hkeys : self.consumeResponse P msg = .ok keys) :
    self.consumeResponse P msg' =
      .ok { keys with peerIndex := .ofNat (fromLE (slice msg' 4 8)) } := by
  obtain ⟨hlength, hhead, state, hopens, rfl⟩ := consumeResponse_ok_iff.mp hkeys
  exact consumeResponse_ok_iff.mpr
    ⟨h.length.trans hlength, h.head.trans hhead, state, (h.opens_eq self).trans hopens, rfl⟩

end Initiator

/-! ### Who checks -/

variable {P}

theorem Responder.addressed_of_consumeInitiation {r : NodePrivate} {msg : List UInt8}
    {res : Responder × Initiation} (h : Responder.consumeInitiation P r msg = .ok res) :
    Responder.Addressed P r msg := by
  by_contra hmac
  have hmac' : slice msg 116 132 ≠ (mac1 P (r.public P) (slice msg 0 116)).toList := hmac
  unfold Responder.consumeInitiation at h
  by_cases hshape : msg.length ≠ initiationLen ∨ msg.head? ≠ some msgInitiation
  · rw [if_pos hshape] at h
    cases h
  · simp only [if_neg hshape, if_pos hmac'] at h
    cases h

variable (P) in
/-- **Who checks the address of a message.**  An initiation is only accepted by
the responder that its `mac1` is for.  Of a response this holds, with a cipher
that makes the tag again, exactly if its length, its first byte or its empty field
is wrong, or its `mac1` and its receiver field are right; for a response that is
accepted may be altered in its receiver, in its `mac1` and in its sender field, and
is accepted all the same, with the index that it has then. -/
theorem accepted_addressed_iff :
    (∀ r msg res, Responder.consumeInitiation P r msg = .ok res → Responder.Addressed P r msg) ∧
    (P.Lawful → P.TagChecked → ∀ (self : Initiator) msg,
      (∀ keys, self.consumeResponse P msg = .ok keys → self.Addressed P msg) ↔
        msg.length ≠ responseLen ∨ msg.head? ≠ some msgResponse ∨
          self.emptyField P ⟨read 32 msg 12⟩ ≠ .ok (slice msg 44 60) ∨ self.Addressed P msg) ∧
    ∀ (self : Initiator) msg msg' keys, self.consumeResponse P msg = .ok keys →
      Initiator.Alike msg msg' →
        self.consumeResponse P msg' =
          .ok { keys with peerIndex := .ofNat (fromLE (slice msg' 4 8)) } := by
  refine ⟨fun r msg res => Responder.addressed_of_consumeInitiation, ?_, ?_⟩
  · intro hA hT self msg
    by_cases hlength : msg.length = responseLen
    swap
    · exact ⟨fun _ => .inl hlength, fun _ keys h =>
        absurd (Initiator.consumeResponse_ok_iff.mp h).1 hlength⟩
    by_cases hhead : msg.head? = some msgResponse
    swap
    · exact ⟨fun _ => .inr (.inl hhead), fun _ keys h =>
        absurd (Initiator.consumeResponse_ok_iff.mp h).2.1 hhead⟩
    have hopens := Initiator.opens_iff hA hT self hlength
    by_cases hfield : self.emptyField P ⟨read 32 msg 12⟩ = .ok (slice msg 44 60)
    · -- the response is accepted, whatever else stands in it
      obtain ⟨state, hstate⟩ := hopens.mpr hfield
      have haccepted := Initiator.consumeResponse_ok_iff.mpr
        ⟨hlength, hhead, state, hstate, rfl⟩
      constructor
      · exact fun h => .inr (.inr (.inr (h _ haccepted)))
      · rintro (h | h | h | h)
        · exact absurd hlength h
        · exact absurd hhead h
        · exact absurd hfield h
        · exact fun _ _ => h
    · refine ⟨fun _ => .inr (.inr (.inl hfield)), fun _ keys h => ?_⟩
      obtain ⟨-, -, state, hstate, -⟩ := Initiator.consumeResponse_ok_iff.mp h
      exact absurd (hopens.mp ⟨state, hstate⟩) hfield
  · intro self msg msg' keys hkeys halike
    exact halike.consumeResponse hkeys

/-- A response in which the indices of a genuine one were replaced is like it, and
not addressed to its initiator. -/
theorem exists_altered :
    let P := checksumPrimitives
    let key (n : UInt8) : NodePrivate := ⟨Vector.replicate 32 n⟩
    ∃ initiator msg responder resp rk ik,
      Initiator.new P (key 1) ((key 2).public P) (key 3) 7 ⟨Vector.replicate 12 5⟩ =
        .ok (initiator, msg) ∧
      Responder.consumeInitiation P (key 2) msg =
        .ok (responder, ⟨(key 1).public P, ⟨Vector.replicate 12 5⟩, 7⟩) ∧
      responder.respond P (key 4) 9 = .ok (resp, rk) ∧
      initiator.consumeResponse P resp = .ok ik ∧
      let altered := blit resp 4 (toLE 4 8 ++ toLE 4 5)
      Initiator.Alike resp altered ∧ slice altered 4 8 = toLE 4 8 ∧
        ¬ initiator.Addressed P altered := by
  intro P key
  obtain ⟨initiator, msg, responder, resp, ik, rk, hnew, hcons, hresp, hfin, -, hindex, -⟩ :=
    handshake_completes checksumAead_lawful checksumPrimitives_dhCommutes (key 1) (key 2) (key 3)
      (key 4) 7 9 ⟨Vector.replicate 12 5⟩
  obtain ⟨hlength, hhead, state, hopens, rfl⟩ := Initiator.consumeResponse_ok_iff.mp hfin
  have hsrc : (toLE 4 8 ++ toLE 4 5).length = 8 := rfl
  obtain ⟨hlen, hself, hother, hfirst⟩ := blit_spec 4 hlength hsrc (by decide)
  have hfields : ∀ lo hi, 4 + hi ≤ 12 → slice (blit resp 4 (toLE 4 8 ++ toLE 4 5)) (4 + lo)
      (4 + hi) = slice (toLE 4 8 ++ toLE 4 5) lo hi := by
    intro lo hi h
    rw [← slice_slice h, hself]
  have hreceiver : slice (blit resp 4 (toLE 4 8 ++ toLE 4 5)) 8 12 = toLE 4 5 :=
    hfields 4 8 (by decide)
  refine ⟨initiator, msg, responder, resp, rk, _, hnew, hcons, hresp, hfin,
    ⟨hlen.trans hlength.symm, hfirst (by decide), hother 12 60 (.inr (by decide))⟩,
    hfields 0 4 (by decide), fun haddr => ?_⟩
  have hindex' : initiator.localIndex = 7 := hindex
  have h := haddr.receiver
  rw [hreceiver, hindex'] at h
  cases h

/-- There the field is the one that the responder sealed, and the condition fails
with what is not checked. -/
theorem accepted_addressed_iff_altered :
    let P := checksumPrimitives
    P.Lawful ∧ P.TagChecked ∧ ∃ (initiator : Initiator) (altered : List UInt8),
      altered.length = responseLen ∧ altered.head? = some msgResponse ∧
        initiator.emptyField P ⟨read 32 altered 12⟩ = .ok (slice altered 44 60) ∧
        ¬ ∀ keys, initiator.consumeResponse P altered = .ok keys →
          initiator.Addressed P altered := by
  obtain ⟨initiator, -, -, resp, -, ik, -, -, -, hfin, halike, -, hnot⟩ := exists_altered
  obtain ⟨-, hiff, haltered⟩ := accepted_addressed_iff checksumPrimitives
  have haccepted := haltered initiator resp _ ik hfin halike
  obtain ⟨hlength, hhead, state, hopens, -⟩ := Initiator.consumeResponse_ok_iff.mp haccepted
  have hfield := (Initiator.opens_iff checksumAead_lawful checksumAead_tagChecked initiator
    hlength).mp ⟨state, hopens⟩
  refine ⟨checksumAead_lawful, checksumAead_tagChecked, initiator, _, hlength, hhead, hfield, ?_⟩
  rw [hiff checksumAead_lawful checksumAead_tagChecked]
  rintro (h | h | h | h)
  · exact h hlength
  · exact h hhead
  · exact h hfield
  · exact hnot h

/-- A response whose two indices were replaced on the way is accepted, with a
peer index that the peer never chose. -/
theorem altered_response_accepted :
    let P := checksumPrimitives
    let key (n : UInt8) : NodePrivate := ⟨Vector.replicate 32 n⟩
    ∃ initiator msg responder resp keys,
      Initiator.new P (key 1) ((key 2).public P) (key 3) 7 ⟨Vector.replicate 12 5⟩ =
        .ok (initiator, msg) ∧
      Responder.consumeInitiation P (key 2) msg =
        .ok (responder, ⟨(key 1).public P, ⟨Vector.replicate 12 5⟩, 7⟩) ∧
      responder.respond P (key 4) 9 = .ok (resp, keys) ∧
      let altered := blit resp 4 (toLE 4 8 ++ toLE 4 5)
      ¬ initiator.Addressed P altered ∧
        ∃ keys', initiator.consumeResponse P altered = .ok keys' ∧ keys'.peerIndex = 8 := by
  intro P key
  obtain ⟨initiator, msg, responder, resp, rk, ik, hnew, hcons, hresp, hfin, halike, hsender,
    hnot⟩ := exists_altered
  refine ⟨initiator, msg, responder, resp, rk, hnew, hcons, hresp, hnot, _,
    halike.consumeResponse hfin, ?_⟩
  show UInt32.ofNat (fromLE (slice _ 4 8)) = 8
  rw [hsender]
  rfl

end Lando
