/-
Lando/Session.lean

WireGuard transport packets (`wireguard/transport.rs`):

    type | reserved[3] | receiver u32 | counter u64 | ciphertext | tag

all little-endian, the AEAD nonce included.  `encrypt` pads the payload to a
multiple of 16 and counts up; `decrypt` authenticates first and only then
consults the replay window.

The output buffer of `encrypt` enters through its length, which is all the
function reads of it; the result carries the bytes it wrote.

The second half runs two sessions against each other over a network that
may reorder, repeat, drop and forge (`Link`).  The cipher there is the ideal
one: it remembers what was encrypted, and decryption is a look-up in that
memory.  `Link.Inv` ties the memory, the packets sent and the replay window
together, and everything the link guarantees is read off it.
-/
import Lando.Wireguard
import Lando.ReplayWindow

namespace Lando

open Bytes

/-! ### A session -/

/-- An established session. -/
structure Session where
  sendCipher : Key
  receiveCipher : Key
  sendCounter : UInt64
  replay : ReplayWindow
  localIndex : UInt32
  peerIndex : UInt32
  deriving DecidableEq

/-- Four zero bytes, then the counter, little-endian. -/
def nonce (counter : UInt64) : Nonce :=
  ⟨(List.replicate 4 0 ++ toLE 8 counter.toNat).toArray, by simp⟩

/-- The payload with zeros up to the next multiple of 16. -/
def padded (payload : List UInt8) : List UInt8 :=
  payload ++ List.replicate ((payload.length + 15) / 16 * 16 - payload.length) 0

/-- The 16 bytes in front of the ciphertext. -/
def transportHeader (peerIndex : UInt32) (counter : UInt64) : List UInt8 :=
  [msgTransport, 0, 0, 0] ++ toLE 4 peerIndex.toNat ++ toLE 8 counter.toNat

/-- The counter field of a packet. -/
def packetCounter (packet : List UInt8) : UInt64 :=
  UInt64.ofNat (fromLE (slice packet 8 16))

/-- The receiver field of a packet. -/
def packetReceiver (packet : List UInt8) : UInt32 :=
  UInt32.ofNat (fromLE (slice packet 4 8))

namespace Session

/-- `Session::new`: nothing sent, nothing received. -/
def new (keys : SessionKeys) : Session where
  sendCipher := keys.send
  receiveCipher := keys.receive
  sendCounter := 0
  replay := ReplayWindow.new
  localIndex := keys.localIndex
  peerIndex := keys.peerIndex

/-- Encrypts `payload` into a buffer of `outLen` bytes; the result is the
packet written there. -/
def encrypt (A : Aead) (s : Session) (payload : List UInt8) (outLen : ℕ) :
    Session × Except WgError (List UInt8) :=
  if rejectAfterMessages ≤ s.sendCounter then (s, .error .nonceExhausted)
  else
    let paddedLen := (payload.length + 15) / 16 * 16
    let total := transportHeaderLen + paddedLen + tagLen
    if outLen < total then (s, .error .shortBuffer)
    else
      let counter := s.sendCounter
      let header := transportHeader s.peerIndex counter
      match A.encryptInPlaceDetached s.sendCipher (nonce counter) [] (padded payload) with
      | none => (s, .error .decrypt)
      | some (body, tag) =>
          ({ s with sendCounter := s.sendCounter + 1 }, .ok (header ++ body ++ tag.toList))

/-- Decrypts a transport packet; the result is the plaintext with the
padding the sender added. -/
def decrypt (A : Aead) (s : Session) (packet : List UInt8) :
    Session × Except WgError (List UInt8) :=
  if packet.length < transportHeaderLen + tagLen ∨ packet.head? ≠ some msgTransport then
    (s, .error .malformed)
  else if packetReceiver packet ≠ s.localIndex then (s, .error .malformed)
  else
    let counter := packetCounter packet
    let bodyLen := packet.length - transportHeaderLen - tagLen
    let body := slice packet transportHeaderLen (transportHeaderLen + bodyLen)
    let tag := read 16 packet (transportHeaderLen + bodyLen)
    -- authenticate before touching the replay window
    match A.decryptInPlaceDetached s.receiveCipher (nonce counter) [] body tag with
    | none => (s, .error .decrypt)
    | some plain =>
        let (replay, ok) := s.replay.accept counter
        if ok then ({ s with replay := replay }, .ok plain)
        else ({ s with replay := replay }, .error .replayedTransport)

end Session

/-! ### The layout of a packet -/

theorem toList_nonce (c : UInt64) :
    (nonce c).toList = List.replicate 4 0 ++ toLE 8 c.toNat := by
  simp [nonce, Vector.toList]

/-- Every counter has its own nonce. -/
theorem nonce_inj {c d : UInt64} (h : nonce c = nonce d) : c = d := by
  have hl : (nonce c).toList = (nonce d).toList := by rw [h]
  rw [toList_nonce, toList_nonce] at hl
  have hb := List.append_cancel_left hl
  have hc : c.toNat < 256 ^ 8 := c.toNat_lt
  have hd : d.toNat < 256 ^ 8 := d.toNat_lt
  exact UInt64.toNat_inj.mp (toLE_inj hc hd hb)

@[simp] theorem length_transportHeader (i : UInt32) (c : UInt64) :
    (transportHeader i c).length = 16 := by
  simp [transportHeader]

section Layout

variable (i : UInt32) (c : UInt64) (body : List UInt8) (tag : Tag)

theorem packetReceiver_packet :
    packetReceiver (transportHeader i c ++ body ++ tag.toList) = i := by
  have h : slice (transportHeader i c ++ body ++ tag.toList) 4 8 = toLE 4 i.toNat := by
    simp only [transportHeader, List.append_assoc]
    exact slice_append_mid (by simp) (by simp)
  have hi : i.toNat < 256 ^ 4 := i.toNat_lt
  rw [packetReceiver, h, fromLE_toLE hi, UInt32.ofNat_toNat]

theorem packetCounter_packet :
    packetCounter (transportHeader i c ++ body ++ tag.toList) = c := by
  have h : slice (transportHeader i c ++ body ++ tag.toList) 8 16 = toLE 8 c.toNat := by
    rw [transportHeader, List.append_assoc, List.append_assoc]
    exact slice_append_mid (by simp) (by simp)
  have hc : c.toNat < 256 ^ 8 := c.toNat_lt
  rw [packetCounter, h, fromLE_toLE hc, UInt64.ofNat_toNat]

theorem body_packet :
    slice (transportHeader i c ++ body ++ tag.toList) 16 (16 + body.length) = body := by
  rw [List.append_assoc]
  exact slice_append_mid (by simp) rfl

theorem tag_packet :
    read 16 (transportHeader i c ++ body ++ tag.toList) (16 + body.length) = tag := by
  apply read_eq
  have h : slice (transportHeader i c ++ body ++ (tag.toList ++ [])) (16 + body.length)
      (16 + body.length + 16) = tag.toList := slice_append_mid (by simp) (by simp)
  rwa [List.append_nil] at h

/-- What a receiver does with a packet of this shape. -/
theorem Session.decrypt_packet (A : Aead) (s : Session) (hi : s.localIndex = i) :
    s.decrypt A (transportHeader i c ++ body ++ tag.toList) =
      match A.decryptInPlaceDetached s.receiveCipher (nonce c) [] body tag with
      | none => (s, .error .decrypt)
      | some plain =>
          if (s.replay.accept c).2 then ({ s with replay := (s.replay.accept c).1 }, .ok plain)
          else ({ s with replay := (s.replay.accept c).1 }, .error .replayedTransport) := by
  have hlen : (transportHeader i c ++ body ++ tag.toList).length - 16 - 16 = body.length := by
    simp only [List.length_append, length_transportHeader, Vector.length_toList]
    omega
  unfold Session.decrypt
  rw [if_neg, packetReceiver_packet, if_neg (by simp [hi])]
  · simp only [transportHeaderLen, tagLen, hlen, packetCounter_packet, body_packet, tag_packet]
  · simp only [not_or, not_lt, not_not]
    refine ⟨?_, rfl⟩
    simp only [transportHeaderLen, tagLen, List.length_append, length_transportHeader,
      Vector.length_toList]
    omega

end Layout

/-! ### What one call can do -/

/-- The session can encrypt the payload into `outLen` bytes. -/
def Session.Fits (s : Session) (payload : List UInt8) (outLen : ℕ) : Prop :=
  s.sendCounter < rejectAfterMessages ∧
    transportHeaderLen + (payload.length + 15) / 16 * 16 + tagLen ≤ outLen

/-- A call of `encrypt` either fails and changes nothing, or emits one packet
under the current counter and counts up. -/
theorem Session.encrypt_cases (A : Aead) (s : Session) (payload : List UInt8) (outLen : ℕ) :
    (∃ e, s.encrypt A payload outLen = (s, .error e)) ∨
      ∃ body tag, s.Fits payload outLen ∧
        A.encryptInPlaceDetached s.sendCipher (nonce s.sendCounter) [] (padded payload)
          = some (body, tag) ∧
        s.encrypt A payload outLen =
          ({ s with sendCounter := s.sendCounter + 1 },
            .ok (transportHeader s.peerIndex s.sendCounter ++ body ++ tag.toList)) := by
  unfold Session.encrypt
  by_cases hlim : rejectAfterMessages ≤ s.sendCounter
  · exact Or.inl ⟨_, if_pos hlim⟩
  rw [if_neg hlim]
  by_cases hout :
      outLen < transportHeaderLen + (payload.length + 15) / 16 * 16 + tagLen
  · exact Or.inl ⟨_, if_pos hout⟩
  simp only [if_neg hout]
  rcases e : A.encryptInPlaceDetached s.sendCipher (nonce s.sendCounter) [] (padded payload)
    with - | ⟨body, tag⟩
  · exact Or.inl ⟨_, rfl⟩
  · exact Or.inr ⟨body, tag, ⟨UInt64.not_le.mp hlim, Nat.not_lt.mp hout⟩, rfl, rfl⟩

theorem length_padded (payload : List UInt8) :
    (padded payload).length = (payload.length + 15) / 16 * 16 := by
  rw [padded, List.length_append, List.length_replicate]
  omega

/-- With a lawful cipher, what fits is encrypted. -/
theorem Session.encrypt_of_fits {A : Aead} (hA : A.Lawful) {s : Session} {payload : List UInt8}
    {outLen : ℕ} (hlim : outLen ≤ 2 ^ 32) (h : s.Fits payload outLen) :
    ∃ packet, s.encrypt A payload outLen =
      ({ s with sendCounter := s.sendCounter + 1 }, .ok packet) := by
  obtain ⟨hcount, hroom⟩ := h
  have hblocks : (padded payload).length / 64 < 2 ^ 32 - 1 := by
    rw [length_padded]
    omega
  obtain ⟨⟨body, tag⟩, he⟩ := Option.isSome_iff_exists.mp
    (hA.encrypt_isSome s.sendCipher (nonce s.sendCounter) [] (padded payload) hblocks)
  refine ⟨transportHeader s.peerIndex s.sendCounter ++ body ++ tag.toList, ?_⟩
  rw [Session.encrypt, if_neg (UInt64.not_le.mpr hcount)]
  simp only [if_neg (Nat.not_lt.mpr hroom), he]

/-- With a lawful cipher, a packet stays in the buffer. -/
theorem Session.length_encrypt {A : Aead} (hA : A.Lawful) {s s' : Session}
    {payload packet : List UInt8} {outLen : ℕ}
    (h : s.encrypt A payload outLen = (s', .ok packet)) : packet.length ≤ outLen := by
  rcases s.encrypt_cases A payload outLen with ⟨e, he⟩ | ⟨body, tag, ⟨-, hroom⟩, hbody, he⟩
  · rw [h] at he
    cases he
  · rw [h] at he
    obtain ⟨-, hp⟩ := Prod.mk.inj he
    rw [Except.ok.inj hp, List.length_append, List.length_append, length_transportHeader,
      Vector.length_toList, hA.encrypt_length _ _ _ _ _ _ hbody, length_padded]
    exact hroom

/-- A call of `decrypt` fails and leaves the session as it was, or it
delivers. -/
theorem Session.decrypt_cases (A : Aead) (s : Session) (packet : List UInt8) :
    (∃ e, s.decrypt A packet = (s, .error e)) ∨
    ∃ body tag plain,
      packetReceiver packet = s.localIndex ∧
      A.decryptInPlaceDetached s.receiveCipher (nonce (packetCounter packet)) [] body tag
        = some plain ∧
      (s.replay.accept (packetCounter packet)).2 = true ∧
      s.decrypt A packet =
        ({ s with replay := (s.replay.accept (packetCounter packet)).1 }, .ok plain) := by
  unfold Session.decrypt
  by_cases hshape : packet.length < transportHeaderLen + tagLen ∨
      packet.head? ≠ some msgTransport
  · exact Or.inl ⟨.malformed, if_pos hshape⟩
  rw [if_neg hshape]
  by_cases hrecv : packetReceiver packet ≠ s.localIndex
  · exact Or.inl ⟨.malformed, if_pos hrecv⟩
  rw [if_neg hrecv]
  simp only
  generalize slice packet transportHeaderLen
    (transportHeaderLen + (packet.length - transportHeaderLen - tagLen)) = body
  generalize read 16 packet
    (transportHeaderLen + (packet.length - transportHeaderLen - tagLen)) = tag
  rcases e : A.decryptInPlaceDetached s.receiveCipher (nonce (packetCounter packet)) [] body tag
    with - | plain
  · exact Or.inl ⟨.decrypt, rfl⟩
  cases hacc : (s.replay.accept (packetCounter packet)).2 with
  | false =>
      refine Or.inl ⟨.replayedTransport, ?_⟩
      simp [ReplayWindow.accept_false hacc]
  | true =>
      exact Or.inr ⟨body, tag, plain, not_not.mp hrecv, e, rfl, by simp⟩

/-! ### Two sessions and a faithful channel -/

namespace Session

variable (A : Aead)

/-- Everything either end encrypts is decrypted by the other, when packets
arrive in order.  A script lists who sends (`true`: the first session), the
payload and the room for the packet; a failing `encrypt` sends nothing. -/
def Carries : Session → Session → List (Bool × List UInt8 × ℕ) → Prop
  | _, _, [] => True
  | a, b, (true, payload, outLen) :: script =>
      match a.encrypt A payload outLen with
      | (a', .error _) => Carries a' b script
      | (a', .ok packet) =>
          (b.decrypt A packet).2 = .ok (padded payload) ∧
            Carries a' (b.decrypt A packet).1 script
  | a, b, (false, payload, outLen) :: script =>
      match b.encrypt A payload outLen with
      | (b', .error _) => Carries a b' script
      | (b', .ok packet) =>
          (a.decrypt A packet).2 = .ok (padded payload) ∧
            Carries (a.decrypt A packet).1 b' script

/-- `b` has received nothing that `a` has yet to send. -/
structure Ready (a b : Session) : Prop where
  keys : a.sendCipher = b.receiveCipher
  index : a.peerIndex = b.localIndex
  window : ∃ acc, b.replay.Represents acc ∧ ∀ c ∈ acc, c < a.sendCounter

variable {A} {a b : Session}

/-- The next packet of a ready pair is delivered and leaves it ready. -/
theorem Ready.decrypt_next (hab : Ready a b) (hlim : a.sendCounter < rejectAfterMessages)
    {body plain : List UInt8} {tag : Tag}
    (hdec : A.decryptInPlaceDetached a.sendCipher (nonce a.sendCounter) [] body tag = some plain) :
    ∃ replay,
      b.decrypt A (transportHeader a.peerIndex a.sendCounter ++ body ++ tag.toList) =
        ({ b with replay := replay }, .ok plain) ∧
      Ready { a with sendCounter := a.sendCounter + 1 } { b with replay := replay } := by
  obtain ⟨acc, hrep, hlt⟩ := hab.window
  have hadm : ReplayWindow.Admits acc a.sendCounter := by
    refine ⟨hlim, fun hm => absurd (hlt _ hm) (UInt64.lt_irrefl _), ?_⟩
    rcases hs : b.replay.started with - | -
    · exact Or.inl (hrep.fresh hs).1
    · have hmem := hrep.top_mem hs
      have := UInt64.lt_iff_toNat_lt.mp (hlt _ hmem)
      exact Or.inr ⟨_, hmem, hrep.top_le, by omega⟩
  rcases hrep.accept a.sendCounter with ⟨-, hacc, hrep'⟩ | ⟨hno, -⟩
  · refine ⟨(b.replay.accept a.sendCounter).1, ?_, hab.keys, hab.index, _, hrep', ?_⟩
    · rw [decrypt_packet _ _ _ _ _ _ hab.index.symm, ← hab.keys, hdec]
      simp [hacc]
    · intro c hc
      have hl := UInt64.lt_iff_toNat_lt.mp hlim
      rw [rejectAfterMessages_toNat] at hl
      have hnext : (a.sendCounter + 1).toNat = a.sendCounter.toNat + 1 := by
        rw [UInt64.toNat_add, UInt64.toNat_one]
        omega
      rw [UInt64.lt_iff_toNat_lt, hnext]
      rcases List.mem_append.mp hc with hc | hc
      · have := UInt64.lt_iff_toNat_lt.mp (hlt c hc)
        omega
      · rw [List.mem_singleton.mp hc]
        omega
  · exact absurd hadm hno

/-- A pair ready in both directions carries every script. -/
theorem Ready.carries
    (hA : ∀ k n ad p c t, A.encryptInPlaceDetached k n ad p = some (c, t) →
      A.decryptInPlaceDetached k n ad c t = some p)
    (script : List (Bool × List UInt8 × ℕ)) :
    ∀ a b : Session, Ready a b → Ready b a → Carries A a b script := by
  induction script with
  | nil => exact fun _ _ _ _ => trivial
  | cons m script ih =>
    obtain ⟨dir, payload, outLen⟩ := m
    intro a b hab hba
    cases dir with
    | true =>
      rcases a.encrypt_cases A payload outLen with ⟨e, h⟩ | ⟨body, tag, ⟨hlim, -⟩, henc, h⟩
      · simp only [Carries, h]
        exact ih a b hab hba
      · obtain ⟨replay, hdec, hab'⟩ := hab.decrypt_next hlim (hA _ _ _ _ _ _ henc)
        simp only [Carries, h, hdec, true_and]
        exact ih _ _ hab' ⟨hba.keys, hba.index, hba.window⟩
    | false =>
      rcases b.encrypt_cases A payload outLen with ⟨e, h⟩ | ⟨body, tag, ⟨hlim, -⟩, henc, h⟩
      · simp only [Carries, h]
        exact ih a b hab hba
      · obtain ⟨replay, hdec, hba'⟩ := hba.decrypt_next hlim (hA _ _ _ _ _ _ henc)
        simp only [Carries, h, hdec, true_and]
        exact ih _ _ ⟨hab.keys, hab.index, hab.window⟩ hba'

/-- Fresh sessions of mirrored keys carry every script. -/
theorem carries_new {ka kb : SessionKeys}
    (hA : ∀ k n ad p c t, A.encryptInPlaceDetached k n ad p = some (c, t) →
      A.decryptInPlaceDetached k n ad c t = some p)
    (hk : ka.Mirrored kb) (script : List (Bool × List UInt8 × ℕ)) :
    Carries A (Session.new ka) (Session.new kb) script := by
  have hnil : ∀ c ∈ ([] : List UInt64), c < 0 := fun c hc => absurd hc List.not_mem_nil
  exact Ready.carries hA script _ _
    ⟨hk.send_eq, hk.peer_eq, [], ReplayWindow.Represents.new, hnil⟩
    ⟨hk.receive_eq.symm, hk.local_eq.symm, [], ReplayWindow.Represents.new, hnil⟩

end Session

/-! ### Two sessions and a network -/

/-- One encryption the ideal cipher remembers. -/
structure Sealed where
  key : Key
  nonce : Nonce
  ad : List UInt8
  plain : List UInt8
  cipher : List UInt8
  tag : Tag
  deriving DecidableEq

/-- Ideal decryption: the ciphertext and tag must be exactly what encryption
under this key and nonce produced. -/
def idealDecrypt (log : List Sealed) (k : Key) (n : Nonce) (ad c : List UInt8) (t : Tag) :
    Option (List UInt8) :=
  (log.find? fun e => e.key = k ∧ e.nonce = n ∧ e.ad = ad ∧ e.cipher = c ∧ e.tag = t).map
    Sealed.plain

/-- What happens on a link: `A` is asked to encrypt, or some packet reaches
`B`.  Nothing ties a packet that arrives to one that was sent. -/
inductive LinkEvent
  | encrypt (payload : List UInt8) (outLen : ℕ)
  | arrive (packet : List UInt8)

/-- The two sessions, the memory of the ideal cipher, the payloads and
packets `A` emitted and the counters `B` delivered, both in order. -/
structure Link where
  a : Session
  b : Session
  log : List Sealed
  sent : List (List UInt8 × List UInt8)
  delivered : List UInt64

namespace Link

/-- How the cipher turns a plaintext into ciphertext and tag; nothing is
assumed of it. -/
abbrev Encryption := Key → Nonce → List UInt8 → List UInt8 → Option (List UInt8 × Tag)

variable (E : Encryption)

/-- The ideal cipher at this point of the run. -/
def aead (l : Link) : Aead := ⟨E, idealDecrypt l.log⟩

/-- The encryption `A` performs on `payload`, as the cipher remembers it. -/
def remember (s : Session) (payload : List UInt8) : List Sealed :=
  ((E s.sendCipher (nonce s.sendCounter) [] (padded payload)).map fun r =>
    ⟨s.sendCipher, nonce s.sendCounter, [], padded payload, r.1, r.2⟩).toList

/-- One event. -/
def step (l : Link) : LinkEvent → Link
  | .encrypt payload outLen =>
      match l.a.encrypt (l.aead E) payload outLen with
      | (a, .ok packet) =>
          { l with
            a := a
            log := l.log ++ remember E l.a payload
            sent := l.sent ++ [(payload, packet)] }
      | (a, .error _) => { l with a := a }
  | .arrive packet =>
      match l.b.decrypt (l.aead E) packet with
      | (b, .ok _) => { l with b := b, delivered := l.delivered ++ [packetCounter packet] }
      | (b, .error _) => { l with b := b }

/-- Two fresh sessions. -/
def start (ka kb : SessionKeys) : Link where
  a := Session.new ka
  b := Session.new kb
  log := []
  sent := []
  delivered := []

/-- The link after a run. -/
def run (ka kb : SessionKeys) (evs : List LinkEvent) : Link :=
  evs.foldl (step E) (start ka kb)

/-- What holds throughout a run.  Packet number `i` is the encryption of its
payload under nonce `i`, and the cipher remembers it at place `i`. -/
structure Inv (l : Link) : Prop where
  keys : l.a.sendCipher = l.b.receiveCipher
  index : l.a.peerIndex = l.b.localIndex
  counter : l.a.sendCounter.toNat = l.sent.length
  limit : l.sent.length ≤ rejectAfterMessages.toNat
  log_length : l.log.length = l.sent.length
  packets : ∀ i payload packet, l.sent[i]? = some (payload, packet) →
    ∃ body tag,
      l.log[i]? = some ⟨l.a.sendCipher, nonce (UInt64.ofNat i), [], padded payload, body, tag⟩ ∧
      packet = transportHeader l.a.peerIndex (UInt64.ofNat i) ++ body ++ tag.toList
  window : l.b.replay.Represents l.delivered
  delivered_lt : ∀ c ∈ l.delivered, c.toNat < l.sent.length
  nodup : l.delivered.Nodup

theorem Inv.start {ka kb : SessionKeys} (h : ka.Mirrored kb) : Inv (start ka kb) where
  keys := h.send_eq
  index := h.peer_eq
  counter := rfl
  limit := Nat.zero_le _
  log_length := rfl
  packets := by
    intro i payload packet hi
    simp [Link.start] at hi
  window := ReplayWindow.Represents.new
  delivered_lt := by
    intro c hc
    exact absurd hc List.not_mem_nil
  nodup := List.nodup_nil

/-- Packet numbers are `u64`s. -/
theorem Inv.toNat_ofNat {l : Link} (hl : l.Inv) {i : ℕ} (hi : i < l.sent.length) :
    (UInt64.ofNat i).toNat = i := by
  have := hl.limit
  rw [rejectAfterMessages_toNat] at this
  rw [UInt64.toNat_ofNat']
  omega

/-- A remembered encryption is that of the packet its nonce numbers. -/
theorem Inv.log_entry {l : Link} (hl : l.Inv) {e : Sealed} (he : e ∈ l.log) {c : UInt64}
    (hn : e.nonce = nonce c) :
    ∃ payload packet, l.sent[c.toNat]? = some (payload, packet) ∧ l.log[c.toNat]? = some e ∧
      e.plain = padded payload := by
  obtain ⟨i, hi, rfl⟩ := List.mem_iff_getElem.mp he
  have hi' : i < l.sent.length := hl.log_length ▸ hi
  rcases hs : l.sent[i] with ⟨payload, packet⟩
  have hs' : l.sent[i]? = some (payload, packet) := by
    rw [List.getElem?_eq_getElem hi', hs]
  obtain ⟨body, tag, hlog, -⟩ := hl.packets i payload packet hs'
  have hentry := hlog
  rw [List.getElem?_eq_getElem hi, Option.some.injEq] at hentry
  -- the nonce determines the place in the memory
  have hc : c = UInt64.ofNat i := nonce_inj (by rw [← hn, hentry])
  have hci : c.toNat = i := by rw [hc, hl.toNat_ofNat hi']
  refine ⟨payload, packet, ?_, ?_, ?_⟩
  · rw [hci]
    exact hs'
  · rw [hci]
    exact List.getElem?_eq_getElem hi
  · rw [hentry]

/-- What ideal decryption under `A`'s key can return. -/
theorem Inv.idealDecrypt_some {l : Link} (hl : l.Inv) {k : Key} {c : UInt64}
    {ad body plain : List UInt8} {tag : Tag}
    (h : idealDecrypt l.log k (nonce c) ad body tag = some plain) :
    ∃ payload packet, l.sent[c.toNat]? = some (payload, packet) ∧ plain = padded payload := by
  obtain ⟨e, hfind, rfl⟩ := Option.map_eq_some_iff.mp h
  have hp := List.find?_some hfind
  simp only [decide_eq_true_eq] at hp
  obtain ⟨payload, packet, hs, -, hplain⟩ :=
    hl.log_entry (List.mem_of_find?_eq_some hfind) hp.2.1
  exact ⟨payload, packet, hs, hplain⟩

/-- What was encrypted decrypts. -/
theorem Inv.idealDecrypt_log {l : Link} (hl : l.Inv) {i : ℕ} {e : Sealed} {c : UInt64}
    (he : l.log[i]? = some e) (hn : e.nonce = nonce c) :
    idealDecrypt l.log e.key (nonce c) e.ad e.cipher e.tag = some e.plain := by
  have hmem : e ∈ l.log := List.mem_of_getElem? he
  obtain ⟨e', hfind⟩ : ∃ e', (l.log.find? fun x => x.key = e.key ∧ x.nonce = nonce c ∧
      x.ad = e.ad ∧ x.cipher = e.cipher ∧ x.tag = e.tag) = some e' := by
    rw [← Option.isSome_iff_exists, List.find?_isSome]
    exact ⟨e, hmem, by simp [hn]⟩
  have hp := List.find?_some hfind
  simp only [decide_eq_true_eq] at hp
  -- both entries carry the nonce of `c`, so they are one entry
  obtain ⟨_, _, -, h₁, -⟩ := hl.log_entry hmem hn
  obtain ⟨_, _, -, h₂, -⟩ := hl.log_entry (List.mem_of_find?_eq_some hfind) hp.2.1
  have heq : e' = e := Option.some.inj (h₂.symm.trans h₁)
  rw [idealDecrypt, hfind, heq]
  rfl

/-- The invariant survives every event. -/
theorem Inv.step {l : Link} (hl : l.Inv) (ev : LinkEvent) : Inv (l.step E ev) := by
  cases ev with
  | encrypt payload outLen =>
    rcases l.a.encrypt_cases (l.aead E) payload outLen with
      ⟨e, he⟩ | ⟨body, tag, ⟨hlim, -⟩, hE, he⟩
    · simp only [Link.step, he]
      exact hl
    have hE' : E l.a.sendCipher (nonce l.a.sendCounter) [] (padded payload) = some (body, tag) :=
      hE
    have hcnt : UInt64.ofNat l.sent.length = l.a.sendCounter := by
      rw [← hl.counter, UInt64.ofNat_toNat]
    have hlt := UInt64.lt_iff_toNat_lt.mp hlim
    rw [hl.counter] at hlt
    simp only [Link.step, he, remember, hE', Option.map_some, Option.toList_some]
    -- only what was sent and logged has grown, by one packet each
    refine ⟨hl.keys, hl.index, ?_, ?_, ?_, ?_, hl.window, ?_, hl.nodup⟩
    · rw [UInt64.toNat_add, hl.counter, List.length_append]
      rw [rejectAfterMessages_toNat] at hlt
      simp only [UInt64.toNat_one, List.length_singleton]
      omega
    · rw [List.length_append, List.length_singleton]
      exact hlt
    · simp [hl.log_length]
    · intro i payload' packet hi
      -- an old packet, or the new one at the end
      rcases Nat.lt_or_ge i l.sent.length with hlt' | hge
      · rw [List.getElem?_append_left hlt'] at hi
        obtain ⟨body', tag', hlog, hpk⟩ := hl.packets i payload' packet hi
        refine ⟨body', tag', ?_, hpk⟩
        rw [List.getElem?_append_left (hl.log_length ▸ hlt')]
        exact hlog
      · rw [List.getElem?_append_right hge, List.getElem?_singleton] at hi
        split_ifs at hi with h0
        have hi' : i = l.sent.length := by omega
        obtain ⟨rfl, rfl⟩ := Prod.mk.inj (Option.some.inj hi)
        refine ⟨body, tag, ?_, ?_⟩
        · rw [hi', ← hl.log_length, List.getElem?_append_right (Nat.le_refl _), Nat.sub_self,
            hl.log_length, hcnt]
          rfl
        · rw [hi', hcnt]
    · intro c hc
      have := hl.delivered_lt c hc
      rw [List.length_append]
      omega
  | arrive packet =>
    rcases l.b.decrypt_cases (l.aead E) packet with ⟨e, h⟩ | ⟨body, tag, plain, -, hdec, hacc, h⟩
    · simp only [Link.step, h]
      exact hl
    -- what decrypts was sent, so its counter is one of those used
    obtain ⟨payload, pkt, hs, -⟩ := hl.idealDecrypt_some hdec
    obtain ⟨hlt, -⟩ := List.getElem?_eq_some_iff.mp hs
    simp only [Link.step, h]
    rcases hl.window.accept (packetCounter packet) with ⟨hadm, -, hrep⟩ | ⟨-, hno⟩
    · refine ⟨hl.keys, hl.index, hl.counter, hl.limit, hl.log_length, hl.packets, hrep, ?_, ?_⟩
      · intro c hc
        rcases List.mem_append.mp hc with hc | hc
        · exact hl.delivered_lt c hc
        · rw [List.mem_singleton.mp hc]
          exact hlt
      · simpa [List.nodup_append] using ⟨hl.nodup, fun c hc e => hadm.2.1 (e ▸ hc)⟩
    · -- a counter that the window refuses does not get here
      simp [hno] at hacc

/-- The invariant holds in every state of every run. -/
theorem Inv.run {ka kb : SessionKeys} (h : ka.Mirrored kb) (evs : List LinkEvent) :
    Inv (run E ka kb evs) := by
  suffices ∀ l : Link, l.Inv → Inv (evs.foldl (Link.step E) l) from this _ (Inv.start h)
  induction evs with
  | nil => exact fun l hl => hl
  | cons ev evs ih => exact fun l hl => ih _ (hl.step E ev)

/-- The counters on the wire are `0, 1, 2, …`. -/
theorem Inv.map_packetCounter {l : Link} (hl : l.Inv) :
    l.sent.map (fun p => (packetCounter p.2).toNat) = List.range l.sent.length := by
  apply List.ext_getElem
  · simp
  intro i h₁ h₂
  have hi : i < l.sent.length := by simpa using h₁
  rcases hs : l.sent[i] with ⟨payload, packet⟩
  have hs' : l.sent[i]? = some (payload, packet) := by rw [List.getElem?_eq_getElem hi, hs]
  obtain ⟨body, tag, -, hpk⟩ := hl.packets i payload packet hs'
  rw [List.getElem_map, List.getElem_range, hs, hpk, packetCounter_packet, hl.toNat_ofNat hi]

/-- An intact packet that is still fresh for the window is delivered. -/
theorem Inv.decrypt_sent {l : Link} (hl : l.Inv) {i : ℕ} {payload packet : List UInt8}
    (hi : l.sent[i]? = some (payload, packet)) (hfresh : UInt64.ofNat i ∉ l.delivered)
    (hwin : ∀ j ∈ l.delivered, j.toNat < i + 2048) :
    (l.b.decrypt (l.aead E) packet).2 = .ok (padded payload) := by
  obtain ⟨body, tag, hlog, rfl⟩ := hl.packets i payload packet hi
  obtain ⟨hlt, -⟩ := List.getElem?_eq_some_iff.mp hi
  have hi64 := hl.toNat_ofNat hlt
  have hdec : (l.aead E).decryptInPlaceDetached l.b.receiveCipher (nonce (UInt64.ofNat i)) []
      body tag = some (padded payload) := by
    rw [← hl.keys]
    exact hl.idealDecrypt_log hlog rfl
  have hadm : ReplayWindow.Admits l.delivered (UInt64.ofNat i) := by
    refine ⟨?_, hfresh, ?_⟩
    · rw [UInt64.lt_iff_toNat_lt, hi64]
      exact Nat.lt_of_lt_of_le hlt hl.limit
    · rcases hs : l.b.replay.started with - | -
      · exact Or.inl (hl.window.fresh hs).1
      · have hmem := hl.window.top_mem hs
        exact Or.inr ⟨_, hmem, hl.window.top_le, by rw [hi64]; exact hwin _ hmem⟩
  rcases hl.window.accept (UInt64.ofNat i) with ⟨-, hacc, -⟩ | ⟨hno, -⟩
  · rw [Session.decrypt_packet _ _ _ _ _ _ hl.index.symm, hdec]
    simp [hacc]
  · exact absurd hadm hno

/-- **The data path over an adversarial network.**  In every state of every
run of two mirrored sessions with an ideal cipher:

* the packets emitted carry the counters `0, 1, 2, …`, and an `encrypt` that
  fails leaves the session, hence its counter, unchanged;
* whatever arrives, a successful `decrypt` returns the padded payload of the
  packet with that counter, which was not delivered before; no counter is
  delivered twice;
* a `decrypt` that ends in `Malformed` or `Decrypt` leaves the window alone;
* a packet that arrives as it was sent, not yet delivered and less than 2048
  below every delivered counter, is delivered. -/
theorem run_delivers_exactly (ka kb : SessionKeys) (hk : ka.Mirrored kb)
    (evs : List LinkEvent) :
    let l := run E ka kb evs
    l.sent.map (fun p => (packetCounter p.2).toNat) = List.range l.sent.length ∧
    (∀ payload outLen e, (l.a.encrypt (l.aead E) payload outLen).2 = .error e →
      (l.a.encrypt (l.aead E) payload outLen).1 = l.a) ∧
    (∀ packet plain, (l.b.decrypt (l.aead E) packet).2 = .ok plain →
      packetCounter packet ∉ l.delivered ∧
      ∃ payload pkt, l.sent[(packetCounter packet).toNat]? = some (payload, pkt) ∧
        plain = padded payload) ∧
    l.delivered.Nodup ∧
    (∀ packet e, (l.b.decrypt (l.aead E) packet).2 = .error e →
      e = .malformed ∨ e = .decrypt →
      (l.b.decrypt (l.aead E) packet).1.replay = l.b.replay) ∧
    (∀ i payload packet, l.sent[i]? = some (payload, packet) →
      UInt64.ofNat i ∉ l.delivered → (∀ j ∈ l.delivered, j.toNat < i + 2048) →
      (l.b.decrypt (l.aead E) packet).2 = .ok (padded payload)) := by
  intro l
  have hl : l.Inv := Inv.run E hk evs
  refine ⟨hl.map_packetCounter, ?_, ?_, hl.nodup, ?_, ?_⟩
  · intro payload outLen e he
    rcases l.a.encrypt_cases (l.aead E) payload outLen with ⟨e', h⟩ | ⟨_, _, -, -, h⟩
    · rw [h]
    · rw [h] at he
      cases he
  · intro packet plain hok
    rcases l.b.decrypt_cases (l.aead E) packet with ⟨e, h⟩ | ⟨body, tag, plain', -, hdec, hacc, h⟩
    · rw [h] at hok
      cases hok
    · rw [h] at hok
      obtain rfl := Except.ok.inj hok
      refine ⟨?_, hl.idealDecrypt_some hdec⟩
      -- what the window admits was not delivered before
      rcases hl.window.accept (packetCounter packet) with ⟨hadm, -, -⟩ | ⟨-, hno⟩
      · exact hadm.2.1
      · simp [hno] at hacc
  · intro packet e he _
    rcases l.b.decrypt_cases (l.aead E) packet with ⟨e', h⟩ | ⟨_, _, _, -, -, -, h⟩
    · rw [h]
    · rw [h] at he
      cases he
  · intro i payload packet hi hfresh hwin
    exact hl.decrypt_sent E hi hfresh hwin

/-- Two packets, the second of which overtakes the first: the first is
delivered after it, and the second is not delivered again. -/
theorem run_delivers_exactly_overtaken :
    let ka : SessionKeys := ⟨Vector.replicate 32 1, Vector.replicate 32 2, 10, 20⟩
    let kb : SessionKeys := ⟨Vector.replicate 32 2, Vector.replicate 32 1, 20, 10⟩
    let E := checksumAead.encryptInPlaceDetached
    ka.Mirrored kb ∧ ∃ first second,
      let l := run E ka kb [.encrypt [1, 2, 3] 64, .encrypt [4] 64, .arrive second]
      l.sent = [([1, 2, 3], first), ([4], second)] ∧ l.delivered = [1] ∧
        (l.b.decrypt (l.aead E) first).2 = .ok (padded [1, 2, 3]) ∧
        ∀ plain, (l.b.decrypt (l.aead E) second).2 ≠ .ok plain := by
  intro ka kb E
  have hm : ka.Mirrored kb := ⟨rfl, rfl, rfl, rfl⟩
  let sent := (run E ka kb [.encrypt [1, 2, 3] 64, .encrypt [4] 64]).sent
  let second := (sent.getD 1 ([], [])).2
  let evs := [.encrypt [1, 2, 3] 64, .encrypt [4] 64, LinkEvent.arrive second]
  have hdelivered : (run E ka kb evs).delivered = [1] := by decide +kernel
  obtain ⟨-, -, honce, -, -, hdelivers⟩ := run_delivers_exactly E ka kb hm evs
  refine ⟨hm, (sent.getD 0 ([], [])).2, second, by decide +kernel, hdelivered, ?_, ?_⟩
  · refine hdelivers 0 _ _ (by decide +kernel) ?_ ?_
    · rw [hdelivered]
      decide
    · intro j hj
      rw [hdelivered, List.mem_singleton] at hj
      rw [hj]
      decide
  · intro plain hplain
    refine (honce second plain hplain).1 ?_
    rw [hdelivered]
    decide +kernel

end Link

end Lando
